/-
Bitmaps in bytes, bit n in byte n / 8 with the lowest bit first, and files of them.

- `test_bit_set_bit`: a bitmap is an array of bits, of which set_bit changes one.
- `set_bit_pwrite`, `test_bit_pwrite`: the bits of a part that is written into a file.
- `pwrite_pread`: what is written back where it was read from changes nothing.
- `pread_pwrite`, `pread_pwrite_apart`: what is read where it was written, and elsewhere.
-/
import Mathlib.Tactic
import AufsUtil.Lib.CStr

namespace AufsUtil.Bitmap

open AufsUtil.CStr

def test_bit (b : Bytes) (n : ℕ) : Bool := (b.getD (n / 8) 0).toNat.testBit (n % 8)

def set_bit (b : Bytes) (n : ℕ) : Bytes := b.set (n / 8) (b.getD (n / 8) 0 ||| UInt8.ofNat (2 ^ (n % 8)))

/-- n bytes of a file, less at its end -/
def pread (f : Bytes) (pos n : ℕ) : Bytes := (f.drop pos).take n

/-- a file with s at pos; it grows as far as that takes -/
def pwrite (f : Bytes) (pos : ℕ) (s : Bytes) : Bytes :=
  f.take pos ++ List.replicate (pos - f.length) 0 ++ s ++ f.drop (pos + s.length)

/-! ## Bits -/

@[simp] theorem length_set_bit (b : Bytes) (n : ℕ) : (set_bit b n).length = b.length := List.length_set

/-- **One bit is set**, and the others stay. -/
theorem test_bit_set_bit {b : Bytes} {n : ℕ} (hn : n < 8 * b.length) :
    test_bit (set_bit b n) = Function.update (test_bit b) n true := by
  have hbyte : n / 8 < b.length := by omega
  have hpow : (UInt8.ofNat (2 ^ (n % 8))).toNat = 2 ^ (n % 8) := by
    have hlt : 2 ^ (n % 8) < 2 ^ 8 := Nat.pow_lt_pow_right (by decide) (by omega)
    rw [UInt8.toNat_ofNat', Nat.mod_eq_of_lt hlt]
  funext m
  rw [Function.update_apply, test_bit, test_bit, set_bit, List.getD_eq_getElem?_getD, List.getElem?_set]
  by_cases hsame : n / 8 = m / 8
  · rw [if_pos hsame, if_pos hbyte, Option.getD_some, UInt8.toNat_or, Nat.testBit_or, hpow, Nat.testBit_two_pow, hsame]
    by_cases hmn : m = n
    · rw [if_pos hmn, hmn, decide_eq_true rfl, Bool.or_true]
    · rw [if_neg hmn, decide_eq_false (by omega), Bool.or_false]
  · rw [if_neg hsame, if_neg (fun hmn => hsame (by rw [hmn])), ← List.getD_eq_getElem?_getD]

/-! ## Files -/

theorem length_pread {f : Bytes} {pos n : ℕ} (h : pos + n ≤ f.length) : (pread f pos n).length = n := by
  rw [pread, List.length_take, List.length_drop]
  omega

/-- the bytes of a file that was written to -/
theorem getElem?_pwrite {f s : Bytes} {pos : ℕ} (h : pos + s.length ≤ f.length) (i : ℕ) :
    (pwrite f pos s)[i]? = if i < pos then f[i]? else if i < pos + s.length then s[i - pos]? else f[i]? := by
  have hzeros : pos - f.length = 0 := by omega
  have htake : (f.take pos).length = pos := by rw [List.length_take]; omega
  rw [pwrite, hzeros, List.replicate_zero, List.append_nil, List.append_assoc]
  split_ifs with h1 h2
  · rw [List.getElem?_append_left (by omega), List.getElem?_take, if_pos h1]
  · rw [List.getElem?_append_right (by omega), htake, List.getElem?_append_left (by omega)]
  · rw [List.getElem?_append_right (by omega), htake, List.getElem?_append_right (by omega), List.getElem?_drop]
    congr 1
    omega

theorem length_pwrite {f s : Bytes} {pos : ℕ} (h : pos + s.length ≤ f.length) : (pwrite f pos s).length = f.length := by
  simp only [pwrite, List.length_append, List.length_take, List.length_replicate, List.length_drop]
  omega

/-- **Written back where it was read from.** -/
theorem pwrite_pread {f : Bytes} {pos n : ℕ} (h : pos + n ≤ f.length) : pwrite f pos (pread f pos n) = f := by
  have hlen := length_pread h
  refine List.ext_getElem? fun i => ?_
  rw [getElem?_pwrite (by omega), hlen]
  split_ifs with h1 h2
  · rfl
  · rw [pread, List.getElem?_take, if_pos (by omega), List.getElem?_drop]
    congr 1
    omega
  · rfl

/-- **Read where it was written.** -/
theorem pread_pwrite {f s : Bytes} {pos : ℕ} (h : pos + s.length ≤ f.length) :
    pread (pwrite f pos s) pos s.length = s := by
  refine List.ext_getElem? fun i => ?_
  rw [pread, List.getElem?_take]
  split_ifs with hi
  · rw [List.getElem?_drop, getElem?_pwrite h, if_neg (by omega), if_pos (by omega), Nat.add_sub_cancel_left]
  · rw [List.getElem?_eq_none (by omega)]

/-- what does not overlap with it stays -/
theorem pread_pwrite_apart {f s : Bytes} {pos at' n : ℕ} (h : pos + s.length ≤ f.length)
    (hapart : at' + n ≤ pos ∨ pos + s.length ≤ at') : pread (pwrite f pos s) at' n = pread f at' n := by
  refine List.ext_getElem? fun i => ?_
  rw [pread, pread, List.getElem?_take, List.getElem?_take]
  split_ifs with hi
  · rw [List.getElem?_drop, List.getElem?_drop, getElem?_pwrite h]
    split_ifs with h1 h2
    · rfl
    · omega
    · rfl
  · rfl

/-- a part that was begun before makes no difference -/
theorem pwrite_pwrite {f s t : Bytes} {pos : ℕ} (h : pos + s.length ≤ f.length) (hle : t.length ≤ s.length) :
    pwrite (pwrite f pos t) pos s = pwrite f pos s := by
  have ht : pos + t.length ≤ f.length := by omega
  have hlen : pos + s.length ≤ (pwrite f pos t).length := by rwa [length_pwrite ht]
  refine List.ext_getElem? fun i => ?_
  rw [getElem?_pwrite hlen, getElem?_pwrite h, getElem?_pwrite ht]
  split_ifs with h1 h2 h3
  · rfl
  · rfl
  · omega
  · rfl

theorem test_bit_pwrite {f s : Bytes} {pos k : ℕ} (h : pos + s.length ≤ f.length) (hk : k < 8 * s.length) :
    test_bit (pwrite f pos s) (8 * pos + k) = test_bit s k := by
  have hdiv : (8 * pos + k) / 8 = pos + k / 8 := by omega
  have hmod : (8 * pos + k) % 8 = k % 8 := by omega
  rw [test_bit, test_bit, hdiv, hmod, List.getD_eq_getElem?_getD, getElem?_pwrite h, if_neg (by omega),
    if_pos (by omega), Nat.add_sub_cancel_left, ← List.getD_eq_getElem?_getD]

/-- a bit that is set before or after it is written -/
theorem set_bit_pwrite {f s : Bytes} {pos k : ℕ} (h : pos + s.length ≤ f.length) (hk : k < 8 * s.length) :
    pwrite f pos (set_bit s k) = set_bit (pwrite f pos s) (8 * pos + k) := by
  have hdiv : (8 * pos + k) / 8 = pos + k / 8 := by omega
  have hmod : (8 * pos + k) % 8 = k % 8 := by omega
  have hbyte : (pwrite f pos s).getD (pos + k / 8) 0 = s.getD (k / 8) 0 := by
    rw [List.getD_eq_getElem?_getD, getElem?_pwrite h, if_neg (by omega), if_pos (by omega), Nat.add_sub_cancel_left,
      ← List.getD_eq_getElem?_getD]
  refine List.ext_getElem? fun i => ?_
  rw [set_bit, set_bit, hdiv, hmod, hbyte, getElem?_pwrite (by rwa [List.length_set]), List.length_set,
    List.getElem?_set, List.getElem?_set, length_pwrite h, getElem?_pwrite h]
  split_ifs <;> first | rfl | omega

end AufsUtil.Bitmap
