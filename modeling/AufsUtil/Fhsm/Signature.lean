/-
The signature of the watermark table, byte by byte (`fhsm/comm.h`, fhsm_map, au_fhsm_csum and au_fhsm_load of
`fhsm/fhsm.c`, au_shm_map of `fhsm/shm.c`).

The shared-memory file is the list of its bytes: magic[8], csum at 8, nwmark at 12, the records from 16 on. A function
that reads a byte behind the end of the file is `none`.

What the model keeps of C:
- nwmark is whatever int the file has; au_fhsm_size converts it to size_t and the sum to off_t;
- the loop of au_fhsm_csum counts len down to 0, from a negative len too;
- strncmp(3) over the magic stops at the NUL behind the six letters;
- the mapping is as long as the file, not as the table.
A page is not modelled: what is mapped behind the end of the file is behind it. Neither is what munmap(2) takes away
when the signature is broken: fhsm_map passes the size that the count of the broken table gives, not the mapping's.

- `csum_loop_eq`, `csum_iff`: what the loop sums up, and exactly when it stays in the file.
- `signature_reads_iff`: exactly when fhsm_map and au_fhsm_load stay in the file.
- `sign_detects`: a signed table verifies, and with one byte of its records or of its checksum replaced it does not.
- `verify_image`, `load_image`: for a file that holds a table of `Fhsm/Table.lean` these are the functions there and in
  `Fhsm/Reload.lean`.
-/
import Mathlib.Tactic
import AufsUtil.Lib.CStr
import AufsUtil.Fhsm.Table
import AufsUtil.Fhsm.Reload

namespace AufsUtil.Fhsm.Signature

open AufsUtil.CStr AufsUtil.Fhsm.Reload

/-! ## The functions -/

/-- a 64-bit off_t after a conversion -/
def toOff (v : ℤ) : ℤ := (v + 2 ^ 63) % 2 ^ 64 - 2 ^ 63

/-- sizeof(*p) + nbr * sizeof(*p->wmark), in size_t -/
def au_fhsm_size (nbr : ℤ) : ℤ := toOff ((16 + nbr % 2 ^ 64 * 20) % 2 ^ 64)

def magic (b : Bytes) : Bytes := b.take 8

def csum (b : Bytes) : ℤ := ofLe ((b.drop 8).take 4)

def nwmark (b : Bytes) : ℤ := toInt (ofLe ((b.drop 12).take 4))

/-- `for (; len; len--, p++) csum += *p`, with the bytes from p on -/
def csum_loop : Bytes → ℤ → ℤ → Option ℤ
  | [], len, sum => if len = 0 then some sum else none
  | c :: p, len, sum => if len = 0 then some sum else csum_loop p (len - 1) ((sum + schar c) % 2 ^ 32)

def au_fhsm_csum (b : Bytes) : Option ℤ := csum_loop (b.drop 12) (au_fhsm_size (nwmark b) - 12) 0

/-- strncpy pads the magic with NULs -/
def au_fhsm_sign (b : Bytes) : Option Bytes :=
  (au_fhsm_csum b).map fun sum => AUFHSM_MAGIC ++ [0, 0] ++ le 4 sum ++ b.drop 12

def au_fhsm_sign_verify (b : Bytes) : Option Bool :=
  if b.take 7 = AUFHSM_MAGIC ++ [0] then (au_fhsm_csum b).map fun sum => csum b == sum else some false

def au_shm_map (b : Bytes) (sys : MapSys) : Option Bytes :=
  if !au_shm_open sys.toOpenSys then none
  else if !sys.fstat then none
  else if sys.mmap then some b else none

/-- the table that is mapped, if the call succeeds -/
def fhsm_map (b : Bytes) (sys : MapSys) : Option (Option Bytes) :=
  match au_shm_map b sys with
  | none => some none
  | some p => (au_fhsm_sign_verify p).map fun ok => if ok then some p else none

/-- memcpy(3) of len bytes from the start of the file -/
def memcpy (b : Bytes) (len : ℤ) : Option Bytes := if 0 ≤ len ∧ len ≤ b.length then some (b.take len.toNat) else none

/-- the copy, if the call succeeds -/
def au_fhsm_load (b : Bytes) (sys : LoadSys) : Option (Option Bytes) :=
  match fhsm_map b sys.toMapSys with
  | none => none
  | some none => some none
  | some (some fhsm) =>
    if !sys.malloc then some none
    else (memcpy fhsm (au_fhsm_size (nwmark fhsm))).map fun p => if sys.munmap && sys.close then some p else none

/-! ## Sizes -/

theorem nwmark_bounds (b : Bytes) : -2 ^ 31 ≤ nwmark b ∧ nwmark b < 2 ^ 31 := by
  unfold nwmark toInt
  omega

/-- no conversion changes the size of a table -/
theorem au_fhsm_size_eq {nbr : ℤ} (h0 : -2 ^ 31 ≤ nbr) (h1 : nbr < 2 ^ 31) : au_fhsm_size nbr = 16 + nbr * 20 := by
  unfold au_fhsm_size toOff
  omega

theorem size_nwmark (b : Bytes) : au_fhsm_size (nwmark b) = 16 + nwmark b * 20 :=
  au_fhsm_size_eq (nwmark_bounds b).1 (nwmark_bounds b).2

/-! ## The loop of the checksum -/

/-- the sum of n chars -/
theorem csum_loop_eq (p : Bytes) (n : ℕ) (sum : ℤ) (h : n ≤ p.length) (hs : sum % 2 ^ 32 = sum) :
    csum_loop p n sum = some ((sum + ((p.take n).map schar).sum) % 2 ^ 32) := by
  induction p generalizing n sum with
  | nil =>
    rw [Nat.le_zero.1 h]
    simpa [csum_loop] using hs.symm
  | cons c p ih =>
    cases n with
    | zero => simpa [csum_loop] using hs.symm
    | succ n =>
      have hlen : ((n + 1 : ℕ) : ℤ) - 1 = n := by omega
      rw [csum_loop, if_neg (by omega), hlen, ih n _ (by simpa using h) (by omega), List.take_succ_cons, List.map_cons,
        List.sum_cons]
      congr 1
      omega

/-- a length that is negative, or beyond the end, leads behind the file -/
theorem csum_loop_none (p : Bytes) (len sum : ℤ) (h : len < 0 ∨ p.length < len) : csum_loop p len sum = none := by
  induction p generalizing len sum with
  | nil => rw [csum_loop, if_neg (by simp at h; omega)]
  | cons c p ih =>
    rw [List.length_cons] at h
    rw [csum_loop, if_neg (by omega)]
    exact ih _ _ (by omega)

/-- the bytes that the checksum is taken of -/
def signed (b : Bytes) : Bytes := (b.drop 12).take (4 + nwmark b * 20).toNat

theorem csum_fits {b : Bytes} (h0 : 0 ≤ nwmark b) (h : 16 + nwmark b * 20 ≤ b.length) :
    au_fhsm_csum b = some (((signed b).map schar).sum % 2 ^ 32) := by
  have hlen : au_fhsm_size (nwmark b) - 12 = ((4 + nwmark b * 20).toNat : ℕ) := by
    rw [size_nwmark]
    omega
  rw [au_fhsm_csum, hlen, csum_loop_eq _ _ _ (by rw [List.length_drop]; omega) rfl, zero_add]
  rfl

/-- **The checksum stays in the file** exactly when the count is not negative and the table it stands for fits. -/
theorem csum_iff (b : Bytes) (hb : 16 ≤ b.length) :
    au_fhsm_csum b ≠ none ↔ 0 ≤ nwmark b ∧ 16 + nwmark b * 20 ≤ b.length := by
  constructor
  · intro h
    by_contra hout
    refine h ?_
    rw [au_fhsm_csum, size_nwmark]
    refine csum_loop_none _ _ _ ?_
    rw [List.length_drop]
    omega
  · intro ⟨h0, h⟩
    rw [csum_fits h0 h]
    exact Option.some_ne_none _

/-! ## Reading a file with any contents -/

/-- neither function reads behind the end of the file, however the system calls end -/
def StaysInside (b : Bytes) : Prop := ∀ sys : LoadSys, fhsm_map b sys.toMapSys ≠ none ∧ au_fhsm_load b sys ≠ none

theorem verify_none_iff (b : Bytes) (hb : 16 ≤ b.length) : au_fhsm_sign_verify b ≠ none ↔
    b.take 7 = AUFHSM_MAGIC ++ [0] → 0 ≤ nwmark b ∧ 16 + nwmark b * 20 ≤ b.length := by
  rw [← csum_iff b hb, au_fhsm_sign_verify]
  split_ifs with hm
  · simp [hm]
  · simp [hm]

theorem fhsm_map_some {b p : Bytes} {sys : MapSys} (h : fhsm_map b sys = some (some p)) :
    p = b ∧ au_fhsm_sign_verify b = some true := by
  have hmap : ∀ q, au_shm_map b sys = some q → q = b := by
    intro q hq
    unfold au_shm_map at hq
    split_ifs at hq
    exact (Option.some.inj hq).symm
  unfold fhsm_map at h
  cases hq : au_shm_map b sys with
  | none =>
    rw [hq] at h
    cases h
  | some q =>
    rw [hq, hmap q hq] at h
    obtain ⟨ok, hok, hp⟩ := Option.map_eq_some_iff.1 h
    cases ok with
    | false => cases hp
    | true =>
      rw [if_pos rfl] at hp
      exact ⟨(Option.some.inj hp).symm, hok⟩

theorem fhsm_map_inside {b : Bytes} (hver : au_fhsm_sign_verify b ≠ none) (sys : MapSys) : fhsm_map b sys ≠ none := by
  unfold fhsm_map
  split
  · exact Option.some_ne_none _
  · rename_i p hp
    unfold au_shm_map at hp
    split_ifs at hp
    rw [← Option.some.inj hp]
    exact fun hn => hver (Option.map_eq_none_iff.1 hn)

/-- the magic and the checksum were right, so the bytes that are copied have been read before -/
theorem au_fhsm_load_inside {b : Bytes} (hb : 16 ≤ b.length) (hver : au_fhsm_sign_verify b ≠ none) (sys : LoadSys) :
    au_fhsm_load b sys ≠ none := by
  unfold au_fhsm_load
  cases hr : fhsm_map b sys.toMapSys with
  | none => exact absurd hr (fhsm_map_inside hver sys.toMapSys)
  | some r =>
    cases r with
    | none => exact Option.some_ne_none _
    | some p =>
      obtain ⟨rfl, hok⟩ := fhsm_map_some hr
      have hmagic : p.take 7 = AUFHSM_MAGIC ++ [0] := by
        by_contra hm
        rw [au_fhsm_sign_verify, if_neg hm] at hok
        cases hok
      obtain ⟨h0, hfit⟩ := (verify_none_iff p hb).1 hver hmagic
      have hcopy : 0 ≤ au_fhsm_size (nwmark p) ∧ au_fhsm_size (nwmark p) ≤ p.length := by
        rw [size_nwmark]
        omega
      cases sys.malloc with
      | false => simp
      | true => simp [memcpy, hcopy]

/-- **When checking the signature is safe.** For every file that has a header, with any contents: exactly when its magic
is another one, or the count in it is not negative and its table fits into the file. -/
theorem signature_reads_iff (b : Bytes) (hb : 16 ≤ b.length) : StaysInside b ↔
    (b.take 7 = AUFHSM_MAGIC ++ [0] → 0 ≤ nwmark b ∧ au_fhsm_size (nwmark b) ≤ b.length) := by
  rw [size_nwmark, ← verify_none_iff b hb]
  constructor
  · intro h hnone
    have hmap := (h ⟨⟨⟨true, true, true⟩, true, true⟩, true, true, true⟩).1
    refine hmap ?_
    simp [fhsm_map, au_shm_map, au_shm_open, hnone]
  · intro hver sys
    exact ⟨fhsm_map_inside hver sys.toMapSys, au_fhsm_load_inside hb hver sys⟩

/-- a table with one record, in a file of its size -/
def smallTable : Bytes := AUFHSM_MAGIC ++ [0, 0] ++ [6, 0, 0, 0] ++ [1, 0, 0, 0] ++ 5 :: List.replicate 19 0

theorem signature_reads_iff_one : StaysInside smallTable ∧ au_fhsm_sign_verify smallTable = some true :=
  ⟨(signature_reads_iff smallTable (by decide)).2 fun _ => by decide, by decide⟩

/-- a header that has lost its one record: the checksum is taken of 20 bytes behind the end of the file -/
theorem reads_behind_the_file :
    let b : Bytes := AUFHSM_MAGIC ++ [0, 0] ++ [0, 0, 0, 0] ++ [1, 0, 0, 0]
    b.length = 16 ∧ ¬ StaysInside b := by
  intro b
  refine ⟨by decide, fun h => ?_⟩
  exact (h ⟨⟨⟨true, true, true⟩, true, true⟩, true, true, true⟩).1 (by decide)

/-! ## A damaged byte -/

theorem verify_fits {b : Bytes} (hm : b.take 7 = AUFHSM_MAGIC ++ [0]) (h0 : 0 ≤ nwmark b)
    (h : 16 + nwmark b * 20 ≤ b.length) :
    au_fhsm_sign_verify b = some (csum b == ((signed b).map schar).sum % 2 ^ 32) := by
  rw [au_fhsm_sign_verify, if_pos hm, csum_fits h0 h]
  rfl

theorem schar_bounds (c : UInt8) : -128 ≤ schar c ∧ schar c < 128 := by
  have := c.toNat_lt
  unfold schar
  split_ifs <;> omega

theorem schar_injective {c d : UInt8} (h : schar c = schar d) : c = d := by
  have hc := c.toNat_lt
  have hd := d.toNat_lt
  unfold schar at h
  refine UInt8.toNat_inj.1 ?_
  split_ifs at h <;> omega

/-- another char in one place changes the sum, by less than 256 -/
theorem sum_set_ne {s : Bytes} {j : ℕ} {v : UInt8} (hj : j < s.length) (hv : s[j]? ≠ some v) :
    ((s.set j v).map schar).sum % 2 ^ 32 ≠ (s.map schar).sum % 2 ^ 32 := by
  have hne : schar v ≠ schar s[j] := fun h => hv (by rw [List.getElem?_eq_getElem hj, schar_injective h])
  have hsum : ((s.set j v).map schar).sum = (s.map schar).sum + (-schar s[j] + schar v) := by
    rw [List.map_set, List.sum_set', dif_pos (by simpa using hj), List.getElem_map]
  have h1 := schar_bounds v
  have h2 := schar_bounds s[j]
  rw [hsum]
  omega

/-- the parts of a signed table -/
structure Signed (b t : Bytes) : Prop where
  magic : t.take 7 = AUFHSM_MAGIC ++ [0]
  csum : csum t = ((signed b).map schar).sum % 2 ^ 32
  rest : t.drop 12 = b.drop 12
  length : t.length = b.length

theorem sign_fits {b : Bytes} (h0 : 0 ≤ nwmark b) (h : 16 + nwmark b * 20 ≤ b.length) :
    ∃ t, au_fhsm_sign b = some t ∧ Signed b t := by
  have hlen : 12 ≤ b.length := by omega
  refine ⟨_, by rw [au_fhsm_sign, csum_fits h0 h, Option.map_some], ?_⟩
  refine ⟨rfl, ?_, ?_, ?_⟩
  · have hfield : ((AUFHSM_MAGIC ++ [0, 0] ++ le 4 (((signed b).map schar).sum % 2 ^ 32) ++ b.drop 12).drop 8).take 4 =
        le 4 (((signed b).map schar).sum % 2 ^ 32) := by
      rw [List.append_assoc]
      exact List.take_left' (length_le 4 _)
    rw [csum, hfield, ofLe_le]
    omega
  · rw [List.drop_left']
    simp [AUFHSM_MAGIC]
  · rw [List.length_append, List.length_append, length_le, List.length_drop]
    simp only [AUFHSM_MAGIC, List.length_append, List.length_cons, List.length_nil]
    omega

theorem Signed.nwmark {b t : Bytes} (h : Signed b t) : nwmark t = nwmark b := by
  rw [Signature.nwmark, h.rest, Signature.nwmark]

theorem Signed.signed {b t : Bytes} (h : Signed b t) : signed t = signed b := by
  rw [Signature.signed, h.rest, h.nwmark, Signature.signed]

/-- a byte of the checksum is replaced: what it is compared with stays -/
theorem set_csum {t : Bytes} {i : ℕ} {v : UInt8} (hi : 8 ≤ i ∧ i < 12) (hlen : i < t.length) (hv : t[i]? ≠ some v) :
    nwmark (t.set i v) = nwmark t ∧ signed (t.set i v) = signed t ∧
      csum (t.set i v) ≠ csum t := by
  have hdrop : (t.set i v).drop 12 = t.drop 12 := List.drop_set_of_lt hi.2
  have hcount : nwmark (t.set i v) = nwmark t := by
    rw [nwmark, hdrop, ← nwmark]
  refine ⟨hcount, by rw [signed, hdrop, hcount, ← signed], ?_⟩
  intro heq
  have hfield := ofLe_injective (by simp) (Int.ofNat_inj.1 heq)
  have hbyte : ∀ s : List UInt8, ((s.drop 8).take 4)[i - 8]? = s[i]? := by
    intro s
    rw [List.getElem?_take_of_lt (by omega), List.getElem?_drop, Nat.add_sub_cancel' hi.1]
  have hget := hbyte t
  rw [← hfield, hbyte, List.getElem?_set_self hlen] at hget
  exact hv hget.symm

/-- a byte of the records is replaced, and so in what is summed up -/
theorem set_record {t : Bytes} {i : ℕ} {v : UInt8} (hi : 16 ≤ i) (hend : i < 16 + nwmark t * 20) :
    nwmark (t.set i v) = nwmark t ∧ csum (t.set i v) = csum t ∧
      signed (t.set i v) = (signed t).set (i - 12) v ∧ (signed t)[i - 12]? = t[i]? := by
  have hdrop : (t.set i v).drop 12 = (t.drop 12).set (i - 12) v := by
    rw [List.drop_set, if_neg (by omega)]
  have hcount : nwmark (t.set i v) = nwmark t := by
    rw [nwmark, hdrop, List.take_set_of_le (by omega), ← nwmark]
  refine ⟨hcount, ?_, ?_, ?_⟩
  · rw [csum, List.drop_set, if_neg (by omega), List.take_set_of_le (by omega), ← csum]
  · rw [signed, hdrop, hcount, List.take_set, ← signed]
  · have h12 : 12 + (i - 12) = i := Nat.add_sub_cancel' (by omega)
    rw [signed, List.getElem?_take_of_lt (by omega), List.getElem?_drop, h12]

/-- **A damaged byte is found.** For every table: signed it verifies, and with any one byte of its records or of its
checksum replaced by another value it does not. -/
theorem sign_detects (n : ℕ) (b : Bytes) (hn : nwmark b = n) (hb : 16 + n * 20 ≤ b.length) :
    ∃ t, au_fhsm_sign b = some t ∧ au_fhsm_sign_verify t = some true ∧
      ∀ i v, (8 ≤ i ∧ i < 12) ∨ (16 ≤ i ∧ i < 16 + n * 20) → t[i]? ≠ some v →
        au_fhsm_sign_verify (t.set i v) = some false := by
  obtain ⟨t, ht, hs⟩ := sign_fits (b := b) (by omega) (by omega)
  have hcount : nwmark t = n := hs.nwmark.trans hn
  refine ⟨t, ht, ?_, ?_⟩
  · rw [verify_fits hs.magic (by omega) (by rw [hs.length]; omega), hs.csum, hs.signed, beq_self_eq_true]
  · intro i v hi hv
    have hlen : i < t.length := by rw [hs.length]; omega
    have hmagic : (t.set i v).take 7 = AUFHSM_MAGIC ++ [0] := by
      rw [List.take_set_of_le (by omega), hs.magic]
    rcases hi with hi | hi
    · obtain ⟨hcount', hsigned, hne⟩ := set_csum hi hlen hv
      rw [verify_fits hmagic (by omega) (by rw [hcount', List.length_set, hs.length]; omega), hsigned, hs.signed,
        ← hs.csum]
      exact congrArg some (beq_false_of_ne hne)
    · obtain ⟨hcount', hcsum, hsigned, hold⟩ := set_record (t := t) (v := v) hi.1 (by omega)
      have hplace : i - 12 < (signed t).length := by
        rw [signed, List.length_take, List.length_drop, hcount]
        omega
      rw [verify_fits hmagic (by omega) (by rw [hcount', List.length_set, hs.length]; omega), hcsum, hs.csum, hsigned,
        ← hs.signed]
      refine congrArg some (beq_false_of_ne fun heq => ?_)
      exact sum_set_ne hplace (by rw [hold]; exact hv) heq.symm

/-- a table of one record, all bytes of it 200 -/
def oneRecord : Bytes := List.replicate 12 0 ++ [1, 0, 0, 0] ++ List.replicate 20 200

theorem sign_detects_one : nwmark oneRecord = (1 : ℕ) ∧ 16 + 1 * 20 ≤ oneRecord.length ∧
    ∃ t, au_fhsm_sign oneRecord = some t ∧ au_fhsm_sign_verify t = some true ∧
      ∀ i v, (8 ≤ i ∧ i < 12) ∨ (16 ≤ i ∧ i < 16 + 1 * 20) → t[i]? ≠ some v →
        au_fhsm_sign_verify (t.set i v) = some false :=
  ⟨by decide, by decide, sign_detects 1 oneRecord (by decide) (by decide)⟩

/-! ## The file of a table -/

variable {F : Type}

/-- the bytes of a table -/
def image (fl : Floats F) (t : Aufhsm F) : Bytes :=
  t.magic ++ le 4 t.csum ++ le 4 t.nwmark ++ (t.wmark.map (Wmark.bytes fl)).flatten

/-- a table that fits into a file: a float has four bytes, the magic eight, csum is an unsigned int and nwmark an int -/
structure Storable (fl : Floats F) (t : Aufhsm F) : Prop where
  float : ∀ x, (fl.bytes x).length = 4
  magic : t.magic.length = 8
  csum : 0 ≤ t.csum ∧ t.csum < 2 ^ 32
  count : t.nwmark < 2 ^ 31

theorem length_records {fl : Floats F} {t : Aufhsm F} (h : Storable fl t) :
    ((t.wmark.map (Wmark.bytes fl)).flatten).length = t.nwmark * 20 := by
  have hone : ∀ w : Wmark F, (w.bytes fl).length = 20 := by
    intro w
    simp [Wmark.bytes, h.float]
  unfold Aufhsm.nwmark
  induction t.wmark with
  | nil => rfl
  | cons w ws ih =>
    rw [List.map_cons, List.flatten_cons, List.length_append, ih, hone, List.length_cons]
    omega

theorem drop_image {fl : Floats F} {t : Aufhsm F} (h : Storable fl t) :
    (image fl t).drop 12 = le 4 t.nwmark ++ (t.wmark.map (Wmark.bytes fl)).flatten := by
  rw [image, List.append_assoc, List.drop_left']
  rw [List.length_append, h.magic, length_le]

theorem nwmark_image {fl : Floats F} {t : Aufhsm F} (h : Storable fl t) : nwmark (image fl t) = t.nwmark := by
  have hn := h.count
  rw [nwmark, drop_image h, List.take_left' (length_le 4 _), ofLe_le]
  unfold toInt
  omega

theorem length_image {fl : Floats F} {t : Aufhsm F} (h : Storable fl t) :
    (image fl t).length = Fhsm.au_fhsm_size t.nwmark := by
  simp only [image, List.length_append, length_le, h.magic, length_records h, Fhsm.au_fhsm_size]

theorem csum_image {fl : Floats F} {t : Aufhsm F} (h : Storable fl t) : csum (image fl t) = t.csum := by
  have hc := h.csum
  rw [csum, image, List.append_assoc, List.append_assoc, List.drop_left' h.magic, List.take_left' (length_le 4 _),
    ofLe_le]
  omega

/-- the checksum of the file is the one of the table -/
theorem verify_image {fl : Floats F} {t : Aufhsm F} (h : Storable fl t) :
    au_fhsm_sign_verify (image fl t) = some (Fhsm.au_fhsm_sign_verify fl t) := by
  have hmagic : (image fl t).take 7 = t.magic.take 7 := by
    rw [image, List.append_assoc, List.append_assoc, List.take_append_of_le_length (by rw [h.magic]; omega)]
  have hsigned : signed (image fl t) = le 4 t.nwmark ++ (t.wmark.map (Wmark.bytes fl)).flatten := by
    rw [signed, drop_image h, nwmark_image h, List.take_of_length_le]
    rw [List.length_append, length_le, length_records h]
    omega
  have hlen : 16 + nwmark (image fl t) * 20 ≤ (image fl t).length := by
    rw [nwmark_image h, length_image h, Fhsm.au_fhsm_size]
    omega
  unfold Fhsm.au_fhsm_sign_verify
  by_cases hm : t.magic.take 7 = AUFHSM_MAGIC ++ [0]
  · rw [verify_fits (hmagic.trans hm) (by rw [nwmark_image h]; omega) hlen, csum_image h, hsigned, hm, beq_self_eq_true,
      Bool.true_and]
    rfl
  · rw [au_fhsm_sign_verify, hmagic, if_neg hm, beq_false_of_ne hm, Bool.false_and]

/-- **The file of a table is loaded as the table.** -/
theorem load_image {fl : Floats F} {t : Aufhsm F} (h : Storable fl t) (sys : LoadSys) :
    au_fhsm_load (image fl t) sys = some ((Reload.au_fhsm_load fl (some t) sys).map (image fl)) := by
  have hmap : au_shm_map (image fl t) sys.toMapSys = (Reload.au_shm_map (some t) sys.toMapSys).map (image fl) := by
    unfold au_shm_map Reload.au_shm_map
    split_ifs <;> rfl
  have hcopy : memcpy (image fl t) (au_fhsm_size (nwmark (image fl t))) = some (image fl t) := by
    have hlen := length_image h
    rw [Fhsm.au_fhsm_size] at hlen
    rw [memcpy, size_nwmark, nwmark_image h, if_pos (by omega), List.take_of_length_le (by omega)]
  unfold au_fhsm_load fhsm_map Reload.au_fhsm_load Reload.fhsm_map
  rw [hmap]
  cases hs : Reload.au_shm_map (some t) sys.toMapSys with
  | none => rfl
  | some p =>
    have hp : p = t := by
      unfold Reload.au_shm_map at hs
      split_ifs at hs
      exact (Option.some.inj hs).symm
    subst hp
    simp only [Option.map_some, verify_image h]
    cases Fhsm.au_fhsm_sign_verify fl p with
    | false => rfl
    | true =>
      simp only [if_true, hcopy]
      cases sys.malloc <;> cases sys.munmap <;> cases sys.close <;> rfl

end AufsUtil.Fhsm.Signature
