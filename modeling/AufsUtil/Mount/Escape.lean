/-
The name that umount looks for in the mount table (`extlib/non-glibc/au_decode_mntpnt.c`).

au_proc_getmntent compares every entry of /proc/self/mounts with the mount point as au_decode_mntpnt writes it into a
buffer of len bytes: a byte that isgraph(3) accepts as it is, any other by sprintf(p, "\\%03o", *src). Both take a char,
which is signed.

What the model keeps of C:
- isgraph is that of the C locale (no program calls setlocale(3)); a value below 0 is no character;
- %03o converts a negative char to unsigned: sprintf stores a backslash, eleven digits and the NUL, and p goes on by 4;
- every store is kept with its address, sprintf's with its NUL, so that a store behind the buffer is seen
  (`au_decode_mntpnt` returns the list of them); the memory afterwards is `writes` of that list.

- `decode_fits`, `decode_too_long`: the stores, and what is returned, when the escaped name fits and when it does not.
- `unescape_shown_iff`: which names a reader of the table gets back.
- `decode_mntpnt_iff`: exactly when nothing is stored behind the buffer, NULL is returned for a name that is too long
  only, and a reader gets the name back. A backslash is a graphic character and is not escaped, although Esc of
  `aufs.shlib` does escape it; a byte from 128 to 254 is written as \377.
-/
import Mathlib.Tactic
import AufsUtil.Lib.CStr
import AufsUtil.Lib.Memory
import AufsUtil.Lib.Octal

namespace AufsUtil.Mount

open AufsUtil.CStr AufsUtil.Memory AufsUtil.Octal

/-! ## The function -/

def isgraph (c : ℤ) : Bool := 33 ≤ c && c ≤ 126

/-- a store: its address and its bytes -/
abbrev Store := ℕ × Bytes

/-- the loop: the stores in their order, and p and len behind it; `none` is `return NULL` -/
def decode_loop : Bytes → ℕ → ℕ → List Store × Option (ℕ × ℕ)
  | [], p, len => ([], some (p, len))
  | c :: src, p, len =>
    if len = 0 then ([], some (p, len))
    else if isgraph (schar c) then
      let r := decode_loop src (p + 1) (len - 1)
      ((p, [c]) :: r.1, r.2)
    else if 4 < len then
      let r := decode_loop src (p + 4) (len - 4)
      ((p, 92 :: printf_03o (schar c) ++ [0]) :: r.1, r.2)
    else ([], none)

/-- the stores, and the pointer that is returned -/
def au_decode_mntpnt (src : Bytes) (dst len : ℕ) : List Store × Option ℕ :=
  match decode_loop src dst len with
  | (l, none) => (l, none)
  | (l, some (p, len)) => if 0 < len then (l ++ [(p, [0])], some dst) else (l, none)

/-- the string in dst afterwards -/
def decoded (m : Mem) (src : Bytes) (dst len : ℕ) : Bytes :=
  cstr (read (writes m (au_decode_mntpnt src dst len).1) dst len) 0

/-! ## The escaped name -/

/-- a byte in the escaped name -/
def esc (c : UInt8) : Bytes := if isgraph (schar c) then [c] else esc3 c

def escaped (src : Bytes) : Bytes := src.flatMap esc

/-- one byte for a graphic character and four for any other -/
def width (src : Bytes) : ℕ := src.length + 3 * src.countP fun c => !isgraph (schar c)

@[simp] theorem width_nil : width [] = 0 := rfl

theorem width_graph {c : UInt8} (src : Bytes) (h : isgraph (schar c) = true) : width (c :: src) = width src + 1 := by
  rw [width, List.countP_cons_of_neg (by simp [h]), List.length_cons, width]
  omega

theorem width_other {c : UInt8} (src : Bytes) (h : isgraph (schar c) = false) : width (c :: src) = width src + 4 := by
  rw [width, List.countP_cons_of_pos (by simp [h]), List.length_cons, width]
  omega

theorem length_escaped (src : Bytes) : (escaped src).length = width src := by
  induction src with
  | nil => rfl
  | cons c src ih =>
    rw [escaped, List.flatMap_cons, List.length_append]
    cases h : isgraph (schar c) with
    | true =>
      rw [width_graph src h, esc, if_pos h, ← ih, Nat.add_comm]
      rfl
    | false =>
      rw [width_other src h, esc, if_neg (by simp [h]), ← ih, Nat.add_comm]
      rfl

/-! ## The stores -/

/-- the stores for a part of the name, from p on -/
def puts : Bytes → ℕ → List Store
  | [], _ => []
  | c :: src, p =>
    if isgraph (schar c) then (p, [c]) :: puts src (p + 1)
    else (p, 92 :: printf_03o (schar c) ++ [0]) :: puts src (p + 4)

/-- as long as the escaped part fits, the loop stores it and goes on behind it -/
theorem decode_loop_append (pre src : Bytes) (p len : ℕ) (h : width pre < len) :
    decode_loop (pre ++ src) p len =
      (puts pre p ++ (decode_loop src (p + width pre) (len - width pre)).1,
        (decode_loop src (p + width pre) (len - width pre)).2) := by
  induction pre generalizing p len with
  | nil => rfl
  | cons c pre ih =>
    rw [List.cons_append, decode_loop, if_neg (by omega)]
    cases hc : isgraph (schar c) with
    | true =>
      rw [width_graph pre hc] at h ⊢
      rw [if_pos rfl, ih (p + 1) (len - 1) (by omega), puts, if_pos hc, show p + 1 + width pre = p + (width pre + 1) by
        omega, show len - 1 - width pre = len - (width pre + 1) by omega]
      rfl
    | false =>
      rw [width_other pre hc] at h ⊢
      rw [if_neg (by simp), if_pos (by omega), ih (p + 4) (len - 4) (by omega), puts, if_neg (by simp [hc]),
        show p + 4 + width pre = p + (width pre + 4) by omega,
        show len - 4 - width pre = len - (width pre + 4) by omega]
      rfl

/-- a name that does not fit ends the loop with NULL, or with no byte left for the terminator -/
theorem decode_loop_too_long (src : Bytes) (p len : ℕ) (h : len ≤ width src) :
    (decode_loop src p len).2 = none ∨ ∃ q, (decode_loop src p len).2 = some (q, 0) := by
  induction src generalizing p len with
  | nil =>
    rw [width_nil, Nat.le_zero] at h
    exact Or.inr ⟨p, by rw [h]; rfl⟩
  | cons c src ih =>
    rw [decode_loop]
    by_cases hlen : len = 0
    · rw [if_pos hlen]
      exact Or.inr ⟨p, by rw [hlen]⟩
    · rw [if_neg hlen]
      cases hc : isgraph (schar c) with
      | true =>
        rw [width_graph src hc] at h
        exact ih (p + 1) (len - 1) (by omega)
      | false =>
        rw [width_other src hc] at h
        rw [if_neg (by simp)]
        split_ifs with h4
        · exact ih (p + 4) (len - 4) (by omega)
        · exact Or.inl rfl

theorem decode_fits (src : Bytes) (dst len : ℕ) (h : width src < len) :
    au_decode_mntpnt src dst len = (puts src dst ++ [(dst + width src, [0])], some dst) := by
  have hloop := decode_loop_append src [] dst len h
  rw [List.append_nil] at hloop
  have hleft : 0 < len - width src := by omega
  simp [au_decode_mntpnt, hloop, decode_loop, hleft]

theorem decode_too_long (src : Bytes) (dst len : ℕ) (h : len ≤ width src) :
    au_decode_mntpnt src dst len = ((decode_loop src dst len).1, none) := by
  unfold au_decode_mntpnt
  rcases hr : decode_loop src dst len with ⟨l, r⟩
  have hend := decode_loop_too_long src dst len h
  rw [hr] at hend
  rcases hend with hend | ⟨q, hend⟩ <;> simp only at hend <;> subst hend <;> rfl

/-- NULL is returned exactly when the escaped name and its terminator do not fit -/
theorem decode_ret_iff (src : Bytes) (dst len : ℕ) :
    (au_decode_mntpnt src dst len).2 ≠ none ↔ (escaped src).length + 1 ≤ len := by
  rw [length_escaped]
  by_cases h : width src < len
  · rw [decode_fits src dst len h]
    simp [Nat.succ_le_of_lt h]
  · rw [decode_too_long src dst len (by omega)]
    simp
    omega

/-! ## The bytes in the buffer -/

/-- what stands in the buffer for a byte when the loop is done: of what sprintf stored, the first four bytes -/
def tok (c : UInt8) : Bytes := if isgraph (schar c) then [c] else esc3 (if c < 128 then c else 255)

def shown (src : Bytes) : Bytes := src.flatMap tok

@[simp] theorem shown_nil : shown [] = [] := rfl

theorem shown_graph {c : UInt8} (src : Bytes) (h : isgraph (schar c) = true) : shown (c :: src) = c :: shown src := by
  rw [shown, List.flatMap_cons, tok, if_pos h]
  rfl

theorem shown_other {c : UInt8} (src : Bytes) (h : isgraph (schar c) = false) :
    shown (c :: src) = esc3 (if c < 128 then c else 255) ++ shown src := by
  rw [shown, List.flatMap_cons, tok, if_neg (by simp [h])]
  rfl

theorem length_shown (src : Bytes) : (shown src).length = width src := by
  induction src with
  | nil => rfl
  | cons c src ih =>
    cases h : isgraph (schar c) with
    | true => rw [shown_graph src h, width_graph src h, List.length_cons, ih]
    | false =>
      rw [shown_other src h, width_other src h, List.length_append, ih, Nat.add_comm]
      rfl

theorem zero_notMem_shown (src : Bytes) : (0 : UInt8) ∉ shown src := by
  have hall : ∀ c : UInt8, (0 : UInt8) ∉ tok c := forall_byte (by decide +kernel)
  intro h
  obtain ⟨c, -, hc⟩ := List.mem_flatMap.1 h
  exact hall c hc

theorem puts_ge (src : Bytes) (p : ℕ) : ∀ s ∈ puts src p, p ≤ s.1 := by
  induction src generalizing p with
  | nil => simp [puts]
  | cons c src ih =>
    intro s hs
    rw [puts] at hs
    split_ifs at hs with hc
    · rcases List.mem_cons.1 hs with rfl | hs
      · exact le_rfl
      · exact (ih (p + 1) s hs).trans' (by omega)
    · rcases List.mem_cons.1 hs with rfl | hs
      · exact le_rfl
      · exact (ih (p + 4) s hs).trans' (by omega)

/-- every store overwrites what the one before it left behind its own bytes -/
theorem at_puts (m : Mem) (src : Bytes) (p : ℕ) : At (writes m (puts src p)) p (shown src) := by
  induction src generalizing m p with
  | nil =>
    intro i hi
    cases hi
  | cons c src ih =>
    rw [puts]
    cases hc : isgraph (schar c) with
    | true =>
      rw [if_pos rfl, writes_cons, shown_graph src hc]
      have hfirst := (at_write m p [c]).writes (puts_ge src (p + 1))
      exact at_append.2 ⟨hfirst, ih (write m p [c]) (p + 1)⟩
    | false =>
      rw [if_neg (by simp), writes_cons, shown_other src hc]
      obtain ⟨htake, -⟩ := printf_char c
      have hfour : (92 :: printf_03o (schar c) ++ [0]).take 4 = esc3 (if c < 128 then c else 255) := by
        rw [List.take_append_of_le_length, htake]
        rw [(printf_char c).2]
        split_ifs <;> omega
      have hput := (at_write m p (92 :: printf_03o (schar c) ++ [0])).take 4
      rw [hfour] at hput
      exact at_append.2 ⟨hput.writes (puts_ge src (p + 4)), ih _ (p + 4)⟩

/-- the string that is returned -/
theorem decoded_eq (m : Mem) (src : Bytes) (dst len : ℕ) (h : width src < len) : decoded m src dst len = shown src := by
  unfold decoded
  rw [decode_fits src dst len h, writes_append]
  refine cstr_read (at_append.2 ⟨?_, ?_⟩) (zero_notMem_shown src) (by rw [length_shown]; exact h)
  · refine (at_puts m src dst).writes fun s hs => ?_
    rw [List.mem_singleton.1 hs, length_shown]
  · rw [length_shown]
    exact at_write (writes m (puts src dst)) (dst + width src) [0]

/-! ## Reading it back -/

/-- a digit at the front of the escaped name is a digit of the name -/
theorem shown_digit {src s : Bytes} {a : UInt8} (h : shown src = a :: s) (ha : octal_digit a) :
    ∃ t, src = a :: t ∧ s = shown t := by
  cases src with
  | nil => cases h
  | cons c src =>
    cases hc : isgraph (schar c) with
    | true =>
      rw [shown_graph src hc] at h
      injection h with hca hs
      exact ⟨src, by rw [hca], hs.symm⟩
    | false =>
      rw [shown_other src hc] at h
      injection h with hca hs
      rw [← hca] at ha
      cases ha

theorem shown_digits {a b d : UInt8} (t : Bytes) (ha : octal_digit a) (hb : octal_digit b) (hd : octal_digit d) :
    shown (a :: b :: d :: t) = a :: b :: d :: shown t := by
  have hgraph : ∀ c : UInt8, octal_digit c = true → isgraph (schar c) = true := forall_byte (by decide +kernel)
  rw [shown_graph _ (hgraph a ha), shown_graph _ (hgraph b hb), shown_graph _ (hgraph d hd)]

/-- a backslash stands before three digits in the escaped name only if it does so in the name -/
theorem escape_first_shown (c : UInt8) (src : Bytes) : escape_first (c :: shown src) = escape_first (c :: src) := by
  rw [Bool.eq_iff_iff, escape_first_iff, escape_first_iff]
  constructor
  · intro ⟨a, b, d, t, h, ha, hb, hd⟩
    injection h with hc h
    obtain ⟨s1, rfl, h1⟩ := shown_digit h ha
    obtain ⟨s2, rfl, h2⟩ := shown_digit h1.symm hb
    obtain ⟨s3, rfl, -⟩ := shown_digit h2.symm hd
    exact ⟨a, b, d, s3, by rw [hc], ha, hb, hd⟩
  · intro ⟨a, b, d, t, h, ha, hb, hd⟩
    injection h with hc h
    exact ⟨a, b, d, shown t, by rw [hc, h, shown_digits t ha hb hd], ha, hb, hd⟩

/-- a reader never gets more bytes than the name has -/
theorem length_unescape_shown (n : ℕ) (src : Bytes) (hn : src.length ≤ n) :
    (unescape (shown src)).length ≤ src.length := by
  induction n generalizing src with
  | zero =>
    rw [List.length_eq_zero_iff.1 (Nat.le_zero.1 hn)]
    exact le_rfl
  | succ n ih =>
    cases src with
    | nil => exact Nat.zero_le _
    | cons c src =>
      rw [List.length_cons] at hn
      cases hc : isgraph (schar c) with
      | false =>
        rw [shown_other src hc, unescape_esc3, List.length_cons, List.length_cons]
        exact Nat.succ_le_succ (ih src (by omega))
      | true =>
        rw [shown_graph src hc]
        cases he : escape_first (c :: shown src) with
        | false =>
          rw [unescape_cons he, List.length_cons, List.length_cons]
          exact Nat.succ_le_succ (ih src (by omega))
        | true =>
          -- four bytes are read as one
          rw [escape_first_shown] at he
          obtain ⟨a, b, d, t, h, ha, hb, hd⟩ := escape_first_iff.1 he
          injection h with h92 h
          subst h
          have ht := ih t (by simp only [List.length_cons] at hn; omega)
          rw [shown_digits t ha hb hd, h92, unescape]
          simp only [ha, hb, hd, List.length_cons, beq_self_eq_true, Bool.and_self, if_true]
          omega

/-- **Which names are read back.** Those in which every byte from 128 on is 255 and no backslash stands before three
octal digits. -/
theorem unescape_shown_iff (src : Bytes) : unescape (shown src) = src ↔
    (∀ c ∈ src, c < 128 ∨ c = 255) ∧ ∀ t, t <:+ src → escape_first t = false := by
  induction src with
  | nil =>
    refine ⟨fun _ => ⟨?_, ?_⟩, fun _ => rfl⟩
    · intro c hc
      cases hc
    · intro t ht
      rw [List.suffix_nil.1 ht]
      rfl
  | cons c src ih =>
    have hsuffix : (∀ t, t <:+ c :: src → escape_first t = false) ↔
        escape_first (c :: src) = false ∧ ∀ t, t <:+ src → escape_first t = false := by
      simp only [List.suffix_cons_iff, forall_eq_or_imp]
    rw [hsuffix, List.forall_mem_cons]
    cases hc : isgraph (schar c) with
    | false =>
      have hne : c ≠ 92 := by
        intro h92
        rw [h92] at hc
        cases hc
      rw [shown_other src hc, unescape_esc3, List.cons.injEq, ih, escape_first_ne src hne]
      have hbyte : (if c < 128 then c else 255) = c ↔ c < 128 ∨ c = 255 := by
        split_ifs with h
        · simp [h]
        · simp [h, eq_comm]
      rw [hbyte, and_iff_right rfl, and_assoc]
    | true =>
      have hascii : c < 128 := by
        have hall : ∀ c : UInt8, isgraph (schar c) = true → c < 128 := forall_byte (by decide +kernel)
        exact hall c hc
      rw [shown_graph src hc]
      cases he : escape_first (c :: src) with
      | false =>
        rw [unescape_cons (by rw [escape_first_shown, he]), List.cons.injEq, ih, and_iff_right rfl, and_iff_right rfl,
          and_iff_right (Or.inl hascii)]
      | true =>
        obtain ⟨a, b, d, t, h, ha, hb, hd⟩ := escape_first_iff.1 he
        injection h with h92 h
        subst h
        have hshort := length_unescape_shown t.length t le_rfl
        refine ⟨fun hread => ?_, fun h => by simp at h⟩
        have hlen := congrArg List.length hread
        rw [shown_digits t ha hb hd, h92, unescape] at hlen
        simp only [ha, hb, hd, List.length_cons, beq_self_eq_true, Bool.and_self, if_true] at hlen
        omega

/-! ## Stores behind the buffer -/

/-- a byte from 128 on, reached with more than four bytes left, finds room for the thirteen that sprintf stores -/
def Roomy (src : Bytes) (len : ℕ) : Prop :=
  ∀ pre c post, src = pre ++ c :: post → 128 ≤ c → width pre + 4 < len → width pre + 13 ≤ len

theorem roomy_graph {c : UInt8} {src : Bytes} {len : ℕ} (h : Roomy (c :: src) len) (hc : isgraph (schar c) = true) :
    Roomy src (len - 1) := by
  intro pre x post hsrc hx hw
  have := h (c :: pre) x post (by rw [hsrc]; rfl) hx (by rw [width_graph pre hc]; omega)
  rw [width_graph pre hc] at this
  omega

theorem roomy_other {c : UInt8} {src : Bytes} {len : ℕ} (h : Roomy (c :: src) len) (hc : isgraph (schar c) = false) :
    Roomy src (len - 4) := by
  intro pre x post hsrc hx hw
  have := h (c :: pre) x post (by rw [hsrc]; rfl) hx (by rw [width_other pre hc]; omega)
  rw [width_other pre hc] at this
  omega

theorem loop_inside {src : Bytes} {len : ℕ} (h : Roomy src len) (p : ℕ) :
    ∀ s ∈ (decode_loop src p len).1, s.1 + s.2.length ≤ p + len := by
  induction src generalizing p len with
  | nil => simp [decode_loop]
  | cons c src ih =>
    intro s hs
    rw [decode_loop] at hs
    split_ifs at hs with hlen hc h4
    · cases hs
    · rcases List.mem_cons.1 hs with rfl | hs
      · simp only [List.length_singleton]
        omega
      · have := ih (roomy_graph h hc) (p + 1) s hs
        omega
    · rw [Bool.not_eq_true] at hc
      rcases List.mem_cons.1 hs with rfl | hs
      · have hstored : (92 :: printf_03o (schar c) ++ [0]).length = if c < 128 then 5 else 13 := by
          rw [List.length_append, (printf_char c).2]
          split_ifs <;> rfl
        simp only [hstored]
        split_ifs with hascii
        · omega
        · have := h [] c src rfl (by simpa using hascii) (by simpa using h4)
          rw [width_nil] at this
          omega
      · have := ih (roomy_other h hc) (p + 4) s hs
        omega
    · cases hs

/-- **Nothing is stored behind the buffer** exactly when every negative char finds its thirteen bytes. -/
theorem stores_inside_iff (src : Bytes) (dst len : ℕ) :
    (∀ s ∈ (au_decode_mntpnt src dst len).1, s.1 + s.2.length ≤ dst + len) ↔ Roomy src len := by
  have hsub : ∀ s ∈ (decode_loop src dst len).1, s ∈ (au_decode_mntpnt src dst len).1 := by
    intro s hs
    unfold au_decode_mntpnt
    rcases hr : decode_loop src dst len with ⟨l, _ | ⟨q, n⟩⟩
    · rwa [hr] at hs
    · rw [hr] at hs
      simp only
      split_ifs
      · exact List.mem_append_left _ hs
      · exact hs
  constructor
  · intro h pre c post hsrc hc hw
    have hgraph : isgraph (schar c) = false := by
      have hall : ∀ c : UInt8, 128 ≤ c → isgraph (schar c) = false := forall_byte (by decide +kernel)
      exact hall c hc
    have hstore : (dst + width pre, 92 :: printf_03o (schar c) ++ [0]) ∈ (decode_loop src dst len).1 := by
      rw [hsrc, decode_loop_append pre (c :: post) dst len (by omega), decode_loop, if_neg (by omega),
        if_neg (by simp [hgraph]), if_pos (by omega)]
      simp
    have hin := h _ (hsub _ hstore)
    have hlen : (92 :: printf_03o (schar c)).length = 12 := by
      rw [(printf_char c).2, if_neg (by simpa using hc)]
    rw [List.length_append, hlen, List.length_singleton] at hin
    omega
  · intro h s hs
    by_cases hfit : width src < len
    · have hloop := decode_loop_append src [] dst len hfit
      rw [List.append_nil] at hloop
      rw [decode_fits src dst len hfit] at hs
      rcases List.mem_append.1 hs with hs | hs
      · exact loop_inside h dst s (by rw [hloop]; exact List.mem_append_left _ hs)
      · rw [List.mem_singleton.1 hs, List.length_singleton]
        omega
    · rw [decode_too_long src dst len (by omega)] at hs
      exact loop_inside h dst s hs

/-! ## Exactly when the escaping is safe and reversible -/

/-- au_decode_mntpnt stays in its buffer, returns NULL only for want of room, and what it writes is read back -/
def Reversible (src : Bytes) (len : ℕ) : Prop :=
  ∀ m dst, (∀ s ∈ (au_decode_mntpnt src dst len).1, s.1 + s.2.length ≤ dst + len) ∧
    ((au_decode_mntpnt src dst len).2 ≠ none ↔ (escaped src).length + 1 ≤ len) ∧
    ((au_decode_mntpnt src dst len).2 ≠ none → unescape (decoded m src dst len) = src)

/-- a negative char finds its thirteen bytes; in a name that fits it is 255, and no backslash stands before three octal
digits -/
def Plain (src : Bytes) (len : ℕ) : Prop :=
  Roomy src len ∧
    (width src < len → (∀ c ∈ src, c < 128 ∨ c = 255) ∧ ∀ t, t <:+ src → escape_first t = false)

theorem unescaped_iff (m : Mem) (src : Bytes) (dst len : ℕ) :
    ((au_decode_mntpnt src dst len).2 ≠ none → unescape (decoded m src dst len) = src) ↔
      (width src < len → (∀ c ∈ src, c < 128 ∨ c = 255) ∧ ∀ t, t <:+ src → escape_first t = false) := by
  rw [decode_ret_iff, length_escaped, Nat.succ_le_iff]
  refine imp_congr_right fun hfit => ?_
  rw [decoded_eq m src dst len hfit, unescape_shown_iff]

/-- **When the name of a mount point is reversible.** For every name and every length: the three properties hold exactly
for a plain name, and two plain names never get the same escaped name. -/
theorem decode_mntpnt_iff (src : Bytes) (len : ℕ) :
    (Reversible src len ↔ Plain src len) ∧
      ∀ src' m m' dst dst', Plain src len → Plain src' len →
        (au_decode_mntpnt src dst len).2 ≠ none → (au_decode_mntpnt src' dst' len).2 ≠ none →
        decoded m src dst len = decoded m' src' dst' len → src = src' := by
  refine ⟨⟨fun h => ?_, fun h m dst => ?_⟩, ?_⟩
  · have hz := h (fun _ => 0) 0
    exact ⟨(stores_inside_iff src 0 len).1 hz.1, (unescaped_iff _ src 0 len).1 hz.2.2⟩
  · exact ⟨(stores_inside_iff src dst len).2 h.1, decode_ret_iff src dst len, (unescaped_iff m src dst len).2 h.2⟩
  · intro src' m m' dst dst' h h' hret hret' heq
    rw [← (unescaped_iff m src dst len).2 h.2 hret, heq, (unescaped_iff m' src' dst' len).2 h'.2 hret']

/-- "/a b" and "/a\040b" get one escaped name, and the second is not read back -/
theorem decode_collides :
    ¬ Reversible [47, 97, 92, 48, 52, 48, 98] 4096 ∧
      ∀ m, decoded m [47, 97, 92, 48, 52, 48, 98] 0 4096 = decoded m [47, 97, 32, 98] 0 4096 := by
  refine ⟨fun h => ?_, fun m => ?_⟩
  · have hread := (h (fun _ => 0) 0).2.2 (by decide +kernel)
    rw [decoded_eq _ _ 0 4096 (by decide)] at hread
    exact absurd hread (by decide)
  · rw [decoded_eq m _ 0 4096 (by decide), decoded_eq m _ 0 4096 (by decide)]
    decide

end AufsUtil.Mount
