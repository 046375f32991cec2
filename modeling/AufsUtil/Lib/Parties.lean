/-
Sums over the parties of a system.

The parties are a list, each one at its own place; a step changes the one at some place, or adds one at the end. What is
counted of all of them changes by what the one that moves contributes.

- `total_set`, `total_concat`: the sum after a step.
- `le_total`: a party counts for no more than all of them.
- `exists_of_total_pos`: if there is something to count, some party has it; `total_eq_zero` if none has.
-/
import Mathlib.Tactic

namespace AufsUtil.Parties

variable {α : Type} (f : α → ℤ)

/-- what all parties have together -/
def total (l : List α) : ℤ := (l.map f).sum

@[simp] theorem total_nil : total f [] = 0 := rfl

@[simp] theorem total_cons (x : α) (l : List α) : total f (x :: l) = f x + total f l := by
  rw [total, List.map_cons, List.sum_cons, total]

@[simp] theorem total_concat (l : List α) (x : α) : total f (l ++ [x]) = total f l + f x := by
  rw [total, List.map_append, List.sum_append, List.map_singleton, List.sum_singleton, total]

/-- the party at place i becomes another one -/
theorem total_set {l : List α} {i : ℕ} {x : α} (hx : l[i]? = some x) (x' : α) :
    total f (l.set i x') = total f l + (f x' - f x) := by
  induction l generalizing i with
  | nil => cases hx
  | cons y l ih =>
    cases i with
    | zero =>
      obtain rfl := Option.some.inj hx
      rw [List.set_cons_zero, total_cons, total_cons]
      ring
    | succ i =>
      rw [List.set_cons_succ, total_cons, total_cons, ih hx]
      ring

variable {f} in
theorem total_eq_zero {l : List α} (h : ∀ x ∈ l, f x = 0) : total f l = 0 := by
  rw [total, List.map_congr_left h, List.map_const', List.sum_replicate, smul_zero]

theorem total_nonneg (h : ∀ x, 0 ≤ f x) (l : List α) : 0 ≤ total f l :=
  List.sum_nonneg fun _ hy => by
    obtain ⟨x, -, rfl⟩ := List.mem_map.1 hy
    exact h x

theorem le_total (h : ∀ x, 0 ≤ f x) {l : List α} {x : α} (hx : x ∈ l) : f x ≤ total f l :=
  List.single_le_sum (fun _ hy => by
    obtain ⟨x, -, rfl⟩ := List.mem_map.1 hy
    exact h x) _ (List.mem_map_of_mem hx)

theorem exists_of_total_pos {l : List α} (h : 0 < total f l) : ∃ x ∈ l, 0 < f x := by
  induction l with
  | nil => exact absurd h (lt_irrefl _)
  | cons y l ih =>
    rw [total_cons] at h
    by_cases hy : 0 < f y
    · exact ⟨y, List.mem_cons_self, hy⟩
    · obtain ⟨x, hx, hpos⟩ := ih (by omega)
      exact ⟨x, List.mem_cons_of_mem y hx, hpos⟩

end AufsUtil.Parties
