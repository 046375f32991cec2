/-
C strings and the byte functions of string.h that the modelled code uses.

A C string is the list of its bytes before the terminating NUL (`Bytes` in which 0 does not occur). A file or a buffer
is a list of bytes in which NUL may occur; a pointer into it is an index.

A file of NUL-terminated records is `encode` of them; `records` reads them back (`records_encode`). What memrchr and
strlen find in such a file: `memrchr_encode`, the NUL before the last record, and `cstr_encode`, the last record.
-/
import Mathlib.Tactic

namespace AufsUtil.CStr

abbrev Bytes := List UInt8

/-- strcmp(3) on NUL-free strings: bytes compare as unsigned char, and a proper prefix is below its extensions because
NUL is below every other byte -/
def strcmp (a b : Bytes) : Ordering := compare a b

instance : Std.TransCmp strcmp := inferInstanceAs (Std.TransCmp (compare : Bytes → Bytes → Ordering))

instance : Std.LawfulEqCmp strcmp := inferInstanceAs (Std.LawfulEqCmp (compare : Bytes → Bytes → Ordering))

/-- memrchr(3): the index of the last byte c among the first n bytes -/
def memrchr (s : Bytes) (c : UInt8) : ℕ → Option ℕ
  | 0 => none
  | n + 1 => if s[n]? = some c then some n else memrchr s c n

/-- strrchr(3) -/
def strrchr (s : Bytes) (c : UInt8) : Option ℕ := memrchr s c s.length

/-- bytes other than c are skipped -/
theorem memrchr_skip (s : Bytes) (c : UInt8) (n d : ℕ) (h : ∀ i, n ≤ i → i < n + d → s[i]? ≠ some c) :
    memrchr s c (n + d) = memrchr s c n := by
  induction d with
  | zero => rfl
  | succ d ih =>
    rw [← Nat.add_assoc, memrchr, if_neg (h (n + d) (by omega) (by omega))]
    exact ih fun i hi hd => h i hi (by omega)

theorem memrchr_get {s : Bytes} {c : UInt8} {n i : ℕ} (h : memrchr s c n = some i) : s[i]? = some c := by
  induction n with
  | zero => simp [memrchr] at h
  | succ n ih =>
    rw [memrchr] at h
    split_ifs at h with hn
    · rw [Option.some.injEq] at h
      exact h ▸ hn
    · exact ih h

theorem strrchr_none {s : Bytes} {c : UInt8} (h : c ∉ s) : strrchr s c = none := by
  have hskip := memrchr_skip s c 0 s.length fun i _ _ hi => h (List.mem_of_getElem? hi)
  rwa [Nat.zero_add] at hskip

/-- the last c of a string is the one with none behind it -/
theorem strrchr_append (s : Bytes) {c : UInt8} {t : Bytes} (h : c ∉ t) : strrchr (s ++ c :: t) c = some s.length := by
  have hlen : (s ++ c :: t).length = s.length + 1 + t.length := by
    rw [List.length_append, List.length_cons]
    omega
  have hget : (s ++ c :: t)[s.length]? = some c := by
    rw [List.getElem?_append_right le_rfl, Nat.sub_self]
    rfl
  rw [strrchr, hlen, memrchr_skip _ _ _ _ fun i hi _ hc => ?_, memrchr, if_pos hget]
  rw [List.getElem?_append_right (by omega), show i - s.length = i - s.length - 1 + 1 by omega,
    List.getElem?_cons_succ] at hc
  exact h (List.mem_of_getElem? hc)

/-- the string at index i: the bytes up to the next NUL -/
def cstr (s : Bytes) (i : ℕ) : Bytes := (s.drop i).takeWhile (· ≠ 0)

/-- strlen(3) of the string at index i -/
def strlen (s : Bytes) (i : ℕ) : ℕ := (cstr s i).length

/-- strchr(3) in the string at index i -/
def strchr (s : Bytes) (i : ℕ) (c : UInt8) : Option ℕ := ((cstr s i).findIdx? (· = c)).map (i + ·)

/-- the value of a char, which is signed -/
def schar (b : UInt8) : ℤ := if b.toNat < 128 then b.toNat else (b.toNat : ℤ) - 256

/-- a fact about bytes that the kernel can count through -/
theorem forall_byte {P : UInt8 → Prop} (h : ∀ n < 256, P (UInt8.ofNat n)) (c : UInt8) : P c := by
  have := h c.toNat c.toNat_lt
  rwa [UInt8.ofNat_toNat] at this

/-- a value of a 32-bit signed int after a conversion -/
def toInt (v : ℤ) : ℤ := (v + 2 ^ 31) % 2 ^ 32 - 2 ^ 31

theorem toInt_of_lt {v : ℤ} (h0 : -2 ^ 31 ≤ v) (h1 : v < 2 ^ 31) : toInt v = v := by
  unfold toInt
  omega

/-- the n low bytes of an integer, lowest first -/
def le (n : ℕ) (v : ℤ) : Bytes := (List.range n).map fun i => UInt8.ofNat (v / 256 ^ i % 256).toNat

/-- the value of bytes, lowest first -/
def ofLe : Bytes → ℕ
  | [] => 0
  | c :: s => c.toNat + 256 * ofLe s

@[simp] theorem length_le (n : ℕ) (v : ℤ) : (le n v).length = n := by simp [le]

theorem le_succ (n : ℕ) (v : ℤ) : le (n + 1) v = UInt8.ofNat (v % 256).toNat :: le n (v / 256) := by
  unfold le
  rw [List.range_succ_eq_map, List.map_cons, List.map_map]
  refine congrArg₂ List.cons (by simp) (List.map_congr_left fun i _ => ?_)
  rw [Function.comp_apply, Nat.succ_eq_add_one, pow_succ', Int.ediv_ediv_of_nonneg (by norm_num)]

/-- the remainder by a product, lowest byte first -/
theorem emod_256_mul (v : ℤ) {P : ℤ} (hP : 0 < P) : v % (256 * P) = v % 256 + 256 * (v / 256 % P) := by
  have hx0 := Int.emod_nonneg (v / 256) hP.ne'
  have hxP := Int.emod_lt_of_pos (v / 256) hP
  have hsplit : v / 256 % P + P * (v / 256 / P) = v / 256 := Int.emod_add_mul_ediv (v / 256) P
  refine ((Int.ediv_emod_unique (q := v / 256 / P) (by omega)).2 ⟨?_, by omega, by omega⟩).2
  calc v % 256 + 256 * (v / 256 % P) + 256 * P * (v / 256 / P)
      = v % 256 + 256 * (v / 256 % P + P * (v / 256 / P)) := by ring
    _ = v % 256 + 256 * (v / 256) := by rw [hsplit]
    _ = v := Int.emod_add_mul_ediv v 256

theorem ofLe_le (n : ℕ) (v : ℤ) : (ofLe (le n v) : ℤ) = v % 256 ^ n := by
  induction n generalizing v with
  | zero => simp [le, ofLe]
  | succ n ih =>
    have hbyte : ((UInt8.ofNat (v % 256).toNat).toNat : ℤ) = v % 256 := by
      rw [UInt8.toNat_ofNat']
      omega
    rw [le_succ, ofLe, Nat.cast_add, Nat.cast_mul, ih, hbyte, pow_succ', emod_256_mul v (by positivity)]
    rfl

theorem ofLe_injective {s t : Bytes} (hlen : s.length = t.length) (h : ofLe s = ofLe t) : s = t := by
  induction s generalizing t with
  | nil => exact (List.length_eq_zero_iff.1 hlen.symm).symm
  | cons c s ih =>
    obtain ⟨d, t, rfl⟩ := List.exists_cons_of_length_eq_add_one hlen.symm
    have hc := c.toNat_lt
    have hd := d.toNat_lt
    rw [ofLe, ofLe] at h
    rw [ih (by simpa using hlen) (by omega), UInt8.toNat_inj.1 (show c.toNat = d.toNat by omega)]

/-! ## Records -/

/-- records one after the other, each with its NUL -/
def encode (rs : List Bytes) : Bytes := (rs.map (· ++ [0])).flatten

/-- the records of a file; bytes behind the last NUL are none -/
def records (s : Bytes) : List Bytes :=
  s.foldr (fun c rs => if c = 0 then [] :: rs else match rs with | [] => [] | r :: rs => (c :: r) :: rs) []

@[simp] theorem encode_nil : encode [] = [] := rfl

@[simp] theorem encode_cons (r : Bytes) (rs : List Bytes) : encode (r :: rs) = r ++ 0 :: encode rs := by
  simp [encode]

@[simp] theorem encode_append (rs ts : List Bytes) : encode (rs ++ ts) = encode rs ++ encode ts := by
  simp [encode]

theorem records_cons (r s : Bytes) (h : (0 : UInt8) ∉ r) : records (r ++ 0 :: s) = r :: records s := by
  induction r with
  | nil => simp [records]
  | cons c r ih =>
    have hc : c ≠ 0 := fun hc => h (hc ▸ List.mem_cons_self)
    have hrest := ih fun hr => h (List.mem_cons_of_mem c hr)
    unfold records at hrest ⊢
    rw [List.cons_append, List.foldr_cons, hrest, if_neg hc]

/-- what was written is read back -/
theorem records_encode (rs : List Bytes) (h : ∀ r ∈ rs, (0 : UInt8) ∉ r) : records (encode rs) = rs := by
  induction rs with
  | nil => rfl
  | cons r rs ih =>
    rw [encode_cons, records_cons r _ (h r List.mem_cons_self), ih fun t ht => h t (List.mem_cons_of_mem r ht)]

/-- memrchr over the records ts and a NUL-free text: the NUL that ends the last record, if there is one -/
theorem memrchr_encode (ts : List Bytes) (r s : Bytes) (h : (0 : UInt8) ∉ r) :
    memrchr (encode ts ++ r ++ s) 0 (encode ts ++ r).length =
      if ts = [] then none else some ((encode ts).length - 1) := by
  rw [List.length_append, memrchr_skip _ _ _ _ fun i hi hd hc => ?_]
  · rcases List.eq_nil_or_concat ts with rfl | ⟨us, t, rfl⟩
    · rfl
    · have hlen : (encode (us ++ [t])).length = (encode us ++ t).length + 1 := by simp; omega
      have hnul : (encode (us ++ [t]) ++ r ++ s)[(encode us ++ t).length]? = some 0 := by
        have hsplit : encode (us ++ [t]) ++ r ++ s = (encode us ++ t) ++ 0 :: (r ++ s) := by simp
        rw [hsplit, List.getElem?_append_right le_rfl]
        simp
      rw [List.concat_eq_append, hlen, memrchr, if_pos hnul, if_neg (by simp), Nat.add_sub_cancel]
  · -- a NUL inside of r
    rw [List.getElem?_append_left (by rw [List.length_append]; omega), List.getElem?_append_right hi] at hc
    exact h (List.mem_of_getElem? hc)

/-- the string behind the bytes a -/
theorem cstr_at (a r s : Bytes) (h : (0 : UInt8) ∉ r) : cstr (a ++ r ++ 0 :: s) a.length = r := by
  unfold cstr
  rw [List.append_assoc, List.drop_left]
  rw [List.takeWhile_append_of_pos]
  · simp
  · intro c hc
    have : c ≠ 0 := fun h0 => h (h0 ▸ hc)
    simpa using this

theorem cstr_encode (ts : List Bytes) (r s : Bytes) (h : (0 : UInt8) ∉ r) :
    cstr (encode ts ++ r ++ 0 :: s) (encode ts).length = r :=
  cstr_at (encode ts) r s h

/-- the first c of the string behind the bytes a -/
theorem strchr_at (a x y s : Bytes) (c : UInt8) (h : (0 : UInt8) ∉ x ++ c :: y) (hx : c ∉ x) :
    strchr (a ++ (x ++ c :: y) ++ 0 :: s) a.length c = some (a.length + x.length) := by
  have hidx : (x ++ c :: y).findIdx? (· = c) = some x.length := by
    rw [List.findIdx?_append, List.findIdx?_eq_none_iff.2]
    · simp [List.findIdx?_cons]
    · intro b hb
      exact decide_eq_false fun hbc => hx (hbc ▸ hb)
  rw [strchr, cstr_at a _ s h, hidx]
  rfl

end AufsUtil.CStr
