/-
Unsigned numbers as printf(3) prints them, in any base up to 36, and snprintf(3).

- `value_padded`: the zeros of a minimal width do not change the number, so that `padded_injective`.
- `length_numeral_le`: how many digits a small number has.
- `snprintf_whole`: a text that fits is the string in the buffer.
-/
import Mathlib.Tactic
import AufsUtil.Lib.Block
import AufsUtil.Lib.Strtol

namespace AufsUtil.Printf

open AufsUtil.CStr AufsUtil.Block AufsUtil.Strtol

/-- the character of a digit -/
def letter (d : ℕ) : UInt8 := if d < 10 then UInt8.ofNat (48 + d) else UInt8.ofNat (87 + d)

/-- the digits of a number -/
def numeral (base n : ℕ) : Bytes := if n = 0 then [48] else ((Nat.digits base n).map letter).reverse

/-- a minimal width, made up with zeros -/
def padded (w : ℕ) (s : Bytes) : Bytes := List.replicate (w - s.length) 48 ++ s

/-- snprintf(3) of a text: what it returns and what it leaves in the buffer; `none` is a store outside of the buffer -/
def snprintf (b : Bytes) (size : ℕ) (text : Bytes) : Option (ℤ × Bytes) :=
  let ret : ℤ := if text.length < 2 ^ 31 then text.length else -1
  if size = 0 then some (ret, b)
  else (store b 0 (text.take (size - 1) ++ [0])).map fun b => (ret, b)

/-! ## Digits -/

theorem digit_letter : ∀ d < 36, Strtol.digit (letter d) = some d := by decide

theorem letter_ne_dash : ∀ d < 36, letter d ≠ 45 := by decide

/-- the digits of a number, lowest first -/
theorem numeral_letters {base : ℕ} (hbase : 1 < base) (n : ℕ) :
    ∃ ds, numeral base n = (ds.map letter).reverse ∧ (∀ d ∈ ds, d < base) ∧ Nat.ofDigits base ds = n := by
  unfold numeral
  split_ifs with h0
  · refine ⟨[0], rfl, ?_, ?_⟩
    · rw [List.forall_mem_singleton]
      omega
    · rw [Nat.ofDigits_singleton, h0]
  · exact ⟨_, rfl, fun d hd => Nat.digits_lt_base hbase hd, Nat.ofDigits_digits base n⟩

theorem length_numeral_le {base n k : ℕ} (hbase : 1 < base) (hk : 0 < k) (hn : n < base ^ k) :
    (numeral base n).length ≤ k := by
  unfold numeral
  split_ifs with h0
  · exact hk
  · rw [List.length_reverse, List.length_map]
    exact (Nat.digits_length_le_iff hbase n).2 hn

@[simp] theorem length_padded (w : ℕ) (s : Bytes) : (padded w s).length = max w s.length := by
  rw [padded, List.length_append, List.length_replicate]
  omega

/-- the zeros in front are the highest digits -/
theorem padded_letters (w : ℕ) (ds : List ℕ) :
    padded w (ds.map letter).reverse = ((ds ++ List.replicate (w - ds.length) 0).map letter).reverse := by
  rw [padded, List.length_reverse, List.length_map, List.map_append, List.map_replicate, List.reverse_append,
    List.reverse_replicate]
  rfl

theorem mem_padded {base : ℕ} (hbase : 1 < base) (hle : base ≤ 36) {w n : ℕ} :
    ∀ c ∈ padded w (numeral base n), ∃ d < 36, c = letter d := by
  intro c hc
  obtain ⟨ds, hds, hlt, -⟩ := numeral_letters hbase n
  rw [hds, padded_letters, List.mem_reverse, List.mem_map] at hc
  obtain ⟨d, hd, rfl⟩ := hc
  rw [List.mem_append, List.mem_replicate] at hd
  refine ⟨d, ?_, rfl⟩
  rcases hd with hd | ⟨-, rfl⟩
  · exact (hlt d hd).trans_le hle
  · decide

/-- digits are read as they were printed -/
theorem value_letters {base : ℕ} (hle : base ≤ 36) (ds : List ℕ) (hds : ∀ d ∈ ds, d < base) :
    value (base, (ds.map letter).reverse) = Nat.ofDigits base ds := by
  have hread : ((ds.map letter).reverse.map fun c => (Strtol.digit c).filter (· < base)) = ds.reverse.map some := by
    rw [← List.map_reverse, List.map_map]
    refine List.map_congr_left fun d hd => ?_
    have hlt := hds d (List.mem_reverse.1 hd)
    rw [Function.comp_apply, digit_letter d (by omega), Option.filter_some, decide_eq_true hlt]
    rfl
  have hall : ∀ es : List ℕ, (es.map some).takeWhile Option.isSome = es.map some := by
    intro es
    induction es with
    | nil => rfl
    | cons e es ih => rw [List.map_cons, List.takeWhile_cons_of_pos rfl, ih]
  rw [value, hread, hall, List.foldl_map, List.foldl_reverse, Nat.ofDigits_eq_foldr]
  refine congrArg (fun f => List.foldr f 0 ds) ?_
  funext d a
  rw [Option.getD_some, Nat.cast_id]
  ring

/-- **The zeros of a width do not change the number.** -/
theorem value_padded {base : ℕ} (hbase : 1 < base) (hle : base ≤ 36) (w n : ℕ) :
    value (base, padded w (numeral base n)) = n := by
  obtain ⟨ds, hds, hlt, hn⟩ := numeral_letters hbase n
  have hlt' : ∀ d ∈ ds ++ List.replicate (w - ds.length) 0, d < base := by
    intro d hd
    rw [List.mem_append, List.mem_replicate] at hd
    rcases hd with hd | ⟨-, rfl⟩
    · exact hlt d hd
    · omega
  rw [hds, padded_letters, value_letters hle _ hlt', Nat.ofDigits_append_replicate_zero, hn]

theorem padded_injective {base : ℕ} (hbase : 1 < base) (hle : base ≤ 36) {w m n : ℕ}
    (h : padded w (numeral base m) = padded w (numeral base n)) : m = n :=
  calc m = value (base, padded w (numeral base m)) := (value_padded hbase hle w m).symm
    _ = value (base, padded w (numeral base n)) := by rw [h]
    _ = n := value_padded hbase hle w n

/-! ## The buffer -/

/-- a text that fits -/
theorem snprintf_whole {b b' text : Bytes} {size : ℕ} {ret : ℤ} (h : snprintf b size text = some (ret, b'))
    (hnul : (0 : UInt8) ∉ text) (hpos : 0 < ret) (hret : ret < size) : cstr b' 0 = text := by
  rw [snprintf] at h
  split_ifs at h with hsize hlong hlong
  · omega
  · omega
  · obtain ⟨c, hc, heq⟩ := Option.map_eq_some_iff.1 h
    rw [Prod.mk.injEq] at heq
    obtain ⟨rfl, rfl⟩ := heq
    rw [List.take_of_length_le (by omega), store] at hc
    split_ifs at hc with hfit
    rw [Option.some.injEq, List.take_zero, List.nil_append] at hc
    rw [← hc, List.append_assoc, List.singleton_append, cstr_zero _ hnul]
  · obtain ⟨c, hc, heq⟩ := Option.map_eq_some_iff.1 h
    rw [Prod.mk.injEq] at heq
    omega

end AufsUtil.Printf
