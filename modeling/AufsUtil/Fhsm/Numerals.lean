/-
Numbers as printf(3) prints them with %d, %lu or %llu, and as strtoul(3) reads them.

- `decimal_cons`: no leading zero; `lt_pow_decimal`, `pow_le_decimal`: how long the text is.
- `strtoul_decimal`: what was printed is read back, also when the base is to be chosen by the digits.
-/
import Mathlib.Tactic
import AufsUtil.Lib.Strtol
import AufsUtil.Fhsm.Lister

namespace AufsUtil.Fhsm.Lister

open AufsUtil.CStr AufsUtil.Strtol

theorem decimal_isdigit (n : ℕ) : ∀ c ∈ decimal n, isdigit c = true := decimal_digits n

theorem spelled_decimal (n : ℕ) : spelled (decimal n) = n := digits_value_decimal n

/-- numbers with one text are the same -/
theorem decimal_injective {m n : ℕ} (h : decimal m = decimal n) : m = n := by
  rw [← digits_value_decimal m, h, digits_value_decimal]

theorem decimal_cons {n : ℕ} (hn : n ≠ 0) : ∃ c ds, decimal n = c :: ds ∧ c ≠ 48 := by
  have hne : Nat.digits 10 n ≠ [] := Nat.digits_ne_nil_iff_ne_zero.2 hn
  have hlast := Nat.getLast_digit_ne_zero 10 hn
  have hlt := Nat.digits_lt_base (by decide) (List.getLast_mem hne) (b := 10)
  obtain ⟨ds, d, hd⟩ := List.eq_nil_or_concat' (Nat.digits 10 n) |>.resolve_left hne
  have hget : (Nat.digits 10 n).getLast hne = d := by simp [hd]
  rw [hget] at hlast hlt
  refine ⟨digit d, (ds.map digit).reverse, ?_, ?_⟩
  · rw [decimal, if_neg hn, hd]
    simp
  · intro h48
    have htoNat := digit_toNat hlt
    rw [h48] at htoNat
    have h48' : (48 : UInt8).toNat = 48 := rfl
    omega

theorem lt_pow_decimal (n : ℕ) : n < 10 ^ (decimal n).length := by
  have := spelled_lt (decimal_isdigit n)
  rwa [spelled_decimal] at this

theorem pow_le_decimal {n : ℕ} (hn : n ≠ 0) : 10 ^ ((decimal n).length - 1) ≤ n := by
  obtain ⟨c, ds, hcons, h48⟩ := decimal_cons hn
  have hle := le_spelled ds (decimal_isdigit n c (hcons ▸ List.mem_cons_self)) h48
  rw [← hcons, spelled_decimal] at hle
  rwa [hcons, List.length_cons, Nat.add_sub_cancel]

/-- **What was printed is read back**, alone or as a line. -/
theorem strtoul_decimal {n : ℕ} (hn : n < 2 ^ 64) {rest : Bytes} (hrest : rest = [] ∨ rest = [10]) :
    strtoul (decimal n ++ rest) = some n := by
  by_cases h0 : n = 0
  · rcases hrest with rfl | rfl <;> rw [h0] <;> rfl
  · obtain ⟨c, ds, hcons, h48⟩ := decimal_cons h0
    have hspell := spelled_decimal n
    rw [hcons] at hspell
    have hend : ∀ d ∈ rest.head?, (Strtol.digit d).filter (· < 10) = none := by
      rcases hrest with rfl | rfl
      · simp
      · simp [Strtol.digit]
    rw [hcons, strtoul_numeral rest (hcons ▸ decimal_isdigit n) h48 hend (hspell ▸ hn), hspell]

end AufsUtil.Fhsm.Lister
