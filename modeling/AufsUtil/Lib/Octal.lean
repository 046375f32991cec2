/-
Octal escapes: a byte written as a backslash and three octal digits, as in the lines of a mount table.

`printf_03o` is the text of the conversion %03o, `esc3` the escape of a byte, `unescape` a reader that replaces every
escape by its byte and keeps all else.

- `printf_char`: of a char the conversion gives three digits up to 127, and eleven, the first three of them 377, from
  128 on, because there the char is negative and the conversion takes an unsigned int.
- `unescape_esc3`, `unescape_cons`: the reader over an escape, and over a byte that starts none.
-/
import Mathlib.Tactic
import AufsUtil.Lib.CStr

namespace AufsUtil.Octal

open AufsUtil.CStr

def octal_digit (c : UInt8) : Bool := 48 ≤ c && c ≤ 55

/-- the octal digits of v, at most n -/
def octal : ℕ → ℕ → Bytes
  | 0, _ => []
  | n + 1, v => if v < 8 then [48 + UInt8.ofNat v] else octal n (v / 8) ++ [48 + UInt8.ofNat (v % 8)]

/-- "%03o" of an int: converted to unsigned, at least three digits -/
def printf_03o (v : ℤ) : Bytes :=
  let d := octal 11 (v % 2 ^ 32).toNat
  List.replicate (3 - d.length) 48 ++ d

/-- the escape of a byte -/
def esc3 (c : UInt8) : Bytes := [92, 48 + c / 64, 48 + c / 8 % 8, 48 + c % 8]

/-- a backslash and three octal digits stand in front -/
def escape_first : Bytes → Bool
  | x :: a :: b :: c :: _ => x == 92 && octal_digit a && octal_digit b && octal_digit c
  | _ => false

def unescape : Bytes → Bytes
  | x :: a :: b :: c :: s =>
    if x == 92 && octal_digit a && octal_digit b && octal_digit c then
      (64 * (a - 48) + 8 * (b - 48) + (c - 48)) :: unescape s
    else x :: unescape (a :: b :: c :: s)
  -- too short for an escape
  | s => s

/-! ## Printing -/

theorem printf_ascii (c : UInt8) (h : c < 128) : 92 :: printf_03o (schar c) = esc3 c := by
  have hall : ∀ c : UInt8, c < 128 → 92 :: printf_03o (schar c) = esc3 c := forall_byte (by decide +kernel)
  exact hall c h

theorem printf_negative (c : UInt8) (h : 128 ≤ c) :
    (printf_03o (schar c)).take 3 = [51, 55, 55] ∧ (printf_03o (schar c)).length = 11 := by
  have hall : ∀ c : UInt8, 128 ≤ c → (printf_03o (schar c)).take 3 = [51, 55, 55] ∧
      (printf_03o (schar c)).length = 11 := forall_byte (by decide +kernel)
  exact hall c h

/-- what the first four bytes of "\\%03o" are: the escape of a char that is not negative, and of 255 for one that is -/
theorem printf_char (c : UInt8) :
    (92 :: printf_03o (schar c)).take 4 = esc3 (if c < 128 then c else 255) ∧
      (92 :: printf_03o (schar c)).length = if c < 128 then 4 else 12 := by
  by_cases h : c < 128
  · rw [printf_ascii c h, if_pos h, if_pos h]
    exact ⟨rfl, rfl⟩
  · obtain ⟨htake, hlen⟩ := printf_negative c (by simpa using h)
    rw [if_neg h, if_neg h, List.take_succ_cons, htake, List.length_cons, hlen]
    exact ⟨rfl, rfl⟩

/-! ## Reading -/

theorem esc3_digits (c : UInt8) : octal_digit (48 + c / 64) ∧ octal_digit (48 + c / 8 % 8) ∧
    octal_digit (48 + c % 8) ∧ 64 * (48 + c / 64 - 48) + 8 * (48 + c / 8 % 8 - 48) + (48 + c % 8 - 48) = c := by
  have hall : ∀ c : UInt8, octal_digit (48 + c / 64) ∧ octal_digit (48 + c / 8 % 8) ∧ octal_digit (48 + c % 8) ∧
      64 * (48 + c / 64 - 48) + 8 * (48 + c / 8 % 8 - 48) + (48 + c % 8 - 48) = c := forall_byte (by decide +kernel)
  exact hall c

theorem unescape_esc3 (c : UInt8) (s : Bytes) : unescape (esc3 c ++ s) = c :: unescape s := by
  obtain ⟨ha, hb, hc, hv⟩ := esc3_digits c
  simp only [esc3, List.cons_append, List.nil_append, unescape]
  rw [ha, hb, hc, hv]
  rfl

theorem unescape_cons {x : UInt8} {s : Bytes} (h : escape_first (x :: s) = false) :
    unescape (x :: s) = x :: unescape s := by
  match s with
  | [] => rfl
  | [_] => rfl
  | [_, _] => rfl
  | a :: b :: c :: s =>
    rw [unescape]
    rw [escape_first] at h
    rw [h]
    rfl

theorem escape_first_ne {x : UInt8} (s : Bytes) (h : x ≠ 92) : escape_first (x :: s) = false := by
  match s with
  | [] => rfl
  | [_] => rfl
  | [_, _] => rfl
  | _ :: _ :: _ :: _ => simp [escape_first, h]

/-- a backslash in front of three digits is an escape whatever follows them -/
theorem escape_first_iff {s : Bytes} : escape_first s = true ↔
    ∃ a b c t, s = 92 :: a :: b :: c :: t ∧ octal_digit a ∧ octal_digit b ∧ octal_digit c := by
  constructor
  · intro h
    match s with
    | [] | [_] | [_, _] | [_, _, _] => simp [escape_first] at h
    | x :: a :: b :: c :: t =>
      simp only [escape_first, Bool.and_eq_true, beq_iff_eq] at h
      obtain ⟨⟨⟨rfl, ha⟩, hb⟩, hc⟩ := h
      exact ⟨a, b, c, t, rfl, ha, hb, hc⟩
  · rintro ⟨a, b, c, t, rfl, ha, hb, hc⟩
    simp [escape_first, ha, hb, hc]

end AufsUtil.Octal
