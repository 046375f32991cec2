/-
The names of the shared memory and of the lists of a mounted aufs (`shm.c`, au_shm_name).

A root is told by its device and its inode: `/<program>-<major><minor>-<inode>`, the first two in hexadecimal with at
least four digits and nothing between them. A larger minor number takes a fifth digit; that is no confusion, because a
major number below 2^12 always takes four.

- `au_shm_name_text`: a name that is returned is whole.
- `different_roots`: equal names are of one device and one inode.
- `controller_name_iff`: when the name that the daemon makes of its own (`aufhsmd.c`, shm_names) is the controller's.

The answer of fstat(2) is an input, and so is the buffer with what it held before.
-/
import Mathlib.Tactic
import AufsUtil.Lib.Printf
import AufsUtil.Fhsm.Numerals

namespace AufsUtil.Fhsm.ShmName

open AufsUtil.CStr AufsUtil.Printf
open AufsUtil.Block (store cstr_zero)
open AufsUtil.Fhsm.Lister (decimal decimal_isdigit decimal_injective)

/-! ## The name -/

structure Stat where
  st_dev : ℕ
  st_ino : ℕ
deriving DecidableEq, Repr

/-- major(3), of a 64-bit dev_t -/
def major (dev : ℕ) : ℕ := (dev &&& 0xfff00) >>> 8 ||| (dev &&& 0xfffff00000000000) >>> 32

/-- minor(3) -/
def minor (dev : ℕ) : ℕ := dev &&& 0xff ||| (dev &&& 0xffffff00000) >>> 12

inductive Stop where
  /-- -1, with the errno of fstat(2) -/
  | fstat
  /-- -1, with E2BIG -/
  | e2big
  /-- a store outside of the buffer -/
  | outside
deriving DecidableEq, Repr

/-- what "%04x" prints -/
def hex4 (n : ℕ) : Bytes := padded 4 (numeral 16 n)

/-- "/%s-%04x%04x-%llu" -/
def name_text (program_invocation_short_name : Bytes) (st : Stat) : Bytes :=
  47 :: (program_invocation_short_name ++
    45 :: (hex4 (major st.st_dev) ++ (hex4 (minor st.st_dev) ++ 45 :: decimal st.st_ino)))

/-- 0 with the buffer, or an error -/
def au_shm_name (program_invocation_short_name : Bytes) (fstat : Option Stat) (name : Bytes) (sz : ℤ) :
    Except Stop Bytes :=
  let sz := toInt sz
  match fstat with
  | none => .error .fstat
  | some st =>
    match snprintf name (sz % 2 ^ 64).toNat (name_text program_invocation_short_name st) with
    | none => .error .outside
    | some (err, name) => if 0 < err ∧ err < sz then .ok name else .error .e2big

/-! ## What is in it -/

theorem hex4_injective {m n : ℕ} (h : hex4 m = hex4 n) : m = n := padded_injective (by decide) (by decide) h

theorem length_hex4 {n : ℕ} (h : n < 2 ^ 12) : (hex4 n).length = 4 := by
  have hle : (numeral 16 n).length ≤ 3 := length_numeral_le (by decide) (by decide) h
  rw [hex4, length_padded]
  omega

theorem hex4_no_dash (n : ℕ) : (45 : UInt8) ∉ hex4 n := by
  intro h
  obtain ⟨d, hd, h45⟩ := mem_padded (by decide) (by decide) 45 h
  exact letter_ne_dash d hd h45.symm

theorem hex4_nul (n : ℕ) : (0 : UInt8) ∉ hex4 n := by
  intro h
  obtain ⟨d, hd, h0⟩ := mem_padded (by decide) (by decide) 0 h
  have hne : ∀ d < 36, letter d ≠ 0 := by decide
  exact hne d hd h0.symm

theorem decimal_no_dash (n : ℕ) : (45 : UInt8) ∉ decimal n := fun h => absurd (decimal_isdigit n 45 h) (by decide)

theorem name_text_nul {prog : Bytes} (hprog : (0 : UInt8) ∉ prog) (st : Stat) : (0 : UInt8) ∉ name_text prog st := by
  have hdec : (0 : UInt8) ∉ decimal st.st_ino := fun h => absurd (decimal_isdigit _ 0 h) (by decide)
  simp [name_text, hprog, hex4_nul, hdec]

/-- **A name is whole.** -/
theorem au_shm_name_text {prog : Bytes} (hprog : (0 : UInt8) ∉ prog) {st : Stat} {name name' : Bytes} {sz : ℤ}
    (h : au_shm_name prog (some st) name sz = .ok name') : cstr name' 0 = name_text prog st := by
  unfold au_shm_name at h
  simp only at h
  have hlt := toInt_lt sz
  cases hprint : snprintf name (toInt sz % 2 ^ 64).toNat (name_text prog st) with
  | none =>
    rw [hprint] at h
    cases h
  | some r =>
    rw [hprint] at h
    simp only at h
    split_ifs at h with hret
    obtain rfl := Except.ok.inj h
    exact snprintf_whole hprint (name_text_nul hprog st) hret.1 (by omega)

/-! ## Different roots -/

/-- **Equal texts are of equal numbers.** The four digits of the major number are cut off; then a dash is the end of the
minor number. -/
theorem name_text_injective {prog : Bytes} {s t : Stat} (hs : major s.st_dev < 2 ^ 12) (ht : major t.st_dev < 2 ^ 12)
    (h : name_text prog s = name_text prog t) :
    major s.st_dev = major t.st_dev ∧ minor s.st_dev = minor t.st_dev ∧ s.st_ino = t.st_ino := by
  have hnumbers : hex4 (major s.st_dev) ++ (hex4 (minor s.st_dev) ++ 45 :: decimal s.st_ino) =
      hex4 (major t.st_dev) ++ (hex4 (minor t.st_dev) ++ 45 :: decimal t.st_ino) :=
    (List.cons.inj (List.append_cancel_left (List.cons.inj h).2)).2
  obtain ⟨hmajor, hrest⟩ := List.append_inj hnumbers (by rw [length_hex4 hs, length_hex4 ht])
  obtain ⟨hminor, -, hino⟩ := (List.append_cons_inj_of_notMem (hex4_no_dash _) (decimal_no_dash _)).1 hrest
  exact ⟨hex4_injective hmajor, hex4_injective hminor, decimal_injective hino⟩

/-- **Different roots have different names**, whatever the minor and inode numbers are. -/
theorem different_roots {prog : Bytes} (hprog : (0 : UInt8) ∉ prog) {s t : Stat} (hs : major s.st_dev < 2 ^ 12)
    (ht : major t.st_dev < 2 ^ 12) {a b a' b' : Bytes} {sz : ℤ} (ha : au_shm_name prog (some s) a sz = .ok a')
    (hb : au_shm_name prog (some t) b sz = .ok b') (heq : cstr a' 0 = cstr b' 0) :
    major s.st_dev = major t.st_dev ∧ minor s.st_dev = minor t.st_dev ∧ s.st_ino = t.st_ino := by
  have htext : name_text prog s = name_text prog t :=
    calc name_text prog s = cstr a' 0 := (au_shm_name_text hprog ha).symm
      _ = cstr b' 0 := heq
      _ = name_text prog t := au_shm_name_text hprog hb
  exact name_text_injective hs ht htext

/-- "/aufhsm-00080003-2", by two calls -/
theorem different_roots_same :
    ∃ name, au_shm_name [97, 117, 102, 104, 115, 109] (some ⟨0x803, 2⟩) (List.replicate 64 0) 64 = .ok name ∧
      major 0x803 = major 0x803 ∧ minor 0x803 = minor 0x803 ∧ 2 = 2 := by
  obtain ⟨name, hname⟩ : ∃ name,
      au_shm_name [97, 117, 102, 104, 115, 109] (some ⟨0x803, 2⟩) (List.replicate 64 0) 64 = .ok name := ⟨_, rfl⟩
  have hnumbers := different_roots (by decide) (by decide) (by decide) hname hname rfl
  exact ⟨name, hname, hnumbers⟩

/-! ## The name of the controller -/

/-- shm_names of the daemon: its own name, and without the letter behind `/aufhsm` the controller's -/
def shm_names (program_invocation_short_name : Bytes) (fstat : Option Stat) (fhsmd lcopy : Bytes) (nlen : ℤ) :
    Except Stop (Bytes × Bytes) :=
  match au_shm_name program_invocation_short_name fstat fhsmd nlen with
  | .error e => .error e
  | .ok fhsmd =>
    -- strcpy
    match store lcopy 0 (cstr fhsmd 0 ++ [0]) with
    | none => .error .outside
    | some lcopy =>
      -- memmove of all behind the letter
      match store lcopy 7 ((lcopy.drop 8).take (strlen lcopy 7)) with
      | none => .error .outside
      | some lcopy => .ok (fhsmd, lcopy)

theorem au_shm_name_fits {prog : Bytes} {st : Stat} {name name' : Bytes} {sz : ℤ}
    (h : au_shm_name prog (some st) name sz = .ok name') : ((name_text prog st).length : ℤ) < toInt sz := by
  unfold au_shm_name at h
  simp only at h
  cases hprint : snprintf name (toInt sz % 2 ^ 64).toNat (name_text prog st) with
  | none =>
    rw [hprint] at h
    cases h
  | some r =>
    rw [hprint] at h
    simp only at h
    split_ifs at h with hret
    have hr : r.1 = if (name_text prog st).length < 2 ^ 31 then ((name_text prog st).length : ℤ) else -1 := by
      rw [snprintf] at hprint
      split_ifs at hprint ⊢
      all_goals
        first
          | cases hprint; rfl
          | (obtain ⟨_, -, heq⟩ := Option.map_eq_some_iff.1 hprint
             rw [← heq])
    split_ifs at hr
    · rw [← hr]
      exact hret.2
    · omega

/-- the name without its eighth letter, behind the slash and a program of seven letters or more -/
theorem name_text_eraseIdx {d : Bytes} (hd : 7 ≤ d.length) (st : Stat) :
    (name_text d st).take 7 ++ (name_text d st).drop 8 = name_text (d.eraseIdx 6) st := by
  rw [← List.eraseIdx_eq_take_drop_succ, name_text, List.eraseIdx_cons_succ,
    List.eraseIdx_append_of_lt_length (Nat.lt_of_succ_le hd), name_text]

/-- strcpy(3) and memmove(3) on a block that is long enough -/
theorem shm_names_text {d : Bytes} (hd : 7 ≤ d.length) (hnul : (0 : UInt8) ∉ d) {st : Stat} {fhsmd fhsmd' lcopy : Bytes}
    {nlen : ℤ} (hlcopy : toInt nlen ≤ lcopy.length) (h : au_shm_name d (some st) fhsmd nlen = .ok fhsmd') :
    ∃ lcopy', shm_names d (some st) fhsmd lcopy nlen = .ok (fhsmd', lcopy') ∧
      cstr lcopy' 0 = name_text (d.eraseIdx 6) st := by
  have htext := au_shm_name_text hnul h
  have hfits := au_shm_name_fits h
  have h0 := name_text_nul hnul st
  have hlong : 8 ≤ (name_text d st).length := by
    simp only [name_text, List.length_cons, List.length_append]
    omega
  set T := name_text d st with hT
  have hcopy : store lcopy 0 (T ++ [0]) = some (T ++ 0 :: lcopy.drop (T.length + 1)) := by
    rw [store, if_pos (by rw [List.length_append, List.length_singleton]; omega)]
    simp
  set y := lcopy.drop (T.length + 1)
  have h7 : (T.take 7).length = 7 := by rw [List.length_take]; omega
  have hstrlen : strlen (T ++ 0 :: y) 7 = T.length - 7 := by
    have hat := cstr_at (T.take 7) (T.drop 7) y fun hmem => h0 (List.mem_of_mem_drop hmem)
    rw [h7, List.take_append_drop] at hat
    rw [strlen, hat, List.length_drop]
  have hrest : ((T ++ 0 :: y).drop 8).take (T.length - 7) = T.drop 8 ++ [0] := by
    have hlen : T.length - 7 = (T.drop 8 ++ [0]).length := by
      rw [List.length_append, List.length_drop, List.length_singleton]
      omega
    rw [List.drop_append_of_le_length hlong, ← List.singleton_append (l := y), ← List.append_assoc, hlen,
      List.take_left]
  have hmove : store (T ++ 0 :: y) 7 (T.drop 8 ++ [0]) =
      some (T.take 7 ++ T.drop 8 ++ 0 :: (T ++ 0 :: y).drop T.length) := by
    have hlen : 7 + (T.drop 8 ++ [0]).length = T.length := by
      rw [List.length_append, List.length_drop, List.length_singleton]
      omega
    rw [store, hlen, if_pos (by rw [List.length_append]; exact Nat.le_add_right _ _),
      List.take_append_of_le_length (by omega)]
    simp
  refine ⟨T.take 7 ++ T.drop 8 ++ 0 :: (T ++ 0 :: y).drop T.length, ?_, ?_⟩
  · rw [shm_names, h]
    dsimp only
    rw [htext, hcopy]
    dsimp only
    rw [hstrlen, hrest, hmove]
  · rw [cstr_zero, name_text_eraseIdx hd]
    rw [List.mem_append, not_or]
    exact ⟨fun hmem => h0 (List.mem_of_mem_take hmem), fun hmem => h0 (List.mem_of_mem_drop hmem)⟩

/-- **One name for both.** A daemon that gets a name for itself in a buffer of this size has made of it the name that
the controller uses for the same root, for the shared memory and for the fifo, exactly if its program is called like the
controller's but for the seventh letter. -/
theorem controller_name_iff {c d : Bytes} (hd : 7 ≤ d.length) (hc0 : (0 : UInt8) ∉ c) (hd0 : (0 : UInt8) ∉ d)
    {st : Stat} {name name' fhsmd fhsmd' lcopy : Bytes} {sz nlen : ℤ} (hlcopy : toInt nlen ≤ lcopy.length)
    (hctl : au_shm_name c (some st) name sz = .ok name') (h : au_shm_name d (some st) fhsmd nlen = .ok fhsmd') :
    ∃ lcopy', shm_names d (some st) fhsmd lcopy nlen = .ok (fhsmd', lcopy') ∧
      (cstr lcopy' 0 = cstr name' 0 ↔ d.eraseIdx 6 = c) := by
  obtain ⟨lcopy', hnames, htext⟩ := shm_names_text hd hd0 hlcopy h
  refine ⟨lcopy', hnames, ?_⟩
  rw [htext, au_shm_name_text hc0 hctl, name_text, name_text, List.cons_inj_right, List.append_cancel_right_eq]

/-- "aufhsmd" and "aufhsm" -/
theorem controller_name_aufhsm :
    ∃ fhsmd lcopy name, shm_names [97, 117, 102, 104, 115, 109, 100] (some ⟨0x803, 2⟩) (List.replicate 32 0)
        (List.replicate 32 0) 32 = .ok (fhsmd, lcopy) ∧
      au_shm_name [97, 117, 102, 104, 115, 109] (some ⟨0x803, 2⟩) (List.replicate 32 0) 32 = .ok name ∧
      cstr lcopy 0 = cstr name 0 := by
  obtain ⟨name, hname⟩ : ∃ name,
      au_shm_name [97, 117, 102, 104, 115, 109] (some ⟨0x803, 2⟩) (List.replicate 32 0) 32 = .ok name := ⟨_, rfl⟩
  obtain ⟨fhsmd, hfhsmd⟩ : ∃ fhsmd,
      au_shm_name [97, 117, 102, 104, 115, 109, 100] (some ⟨0x803, 2⟩) (List.replicate 32 0) 32 = .ok fhsmd := ⟨_, rfl⟩
  obtain ⟨lcopy, hnames, hiff⟩ : ∃ lcopy,
      shm_names [97, 117, 102, 104, 115, 109, 100] (some ⟨0x803, 2⟩) (List.replicate 32 0) (List.replicate 32 0) 32 =
          .ok (fhsmd, lcopy) ∧
        (cstr lcopy 0 = cstr name 0 ↔ [97, 117, 102, 104, 115, 109, 100].eraseIdx 6 = [97, 117, 102, 104, 115, 109]) :=
    controller_name_iff (by decide) (by decide) (by decide) (by decide) hname hfhsmd
  exact ⟨fhsmd, lcopy, name, hnames, hname, hiff.2 (by decide)⟩

end AufsUtil.Fhsm.ShmName
