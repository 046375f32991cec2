/-
Searching a text: strstr(3), and the fields of a text with separators.

`strstr` gives the text from the first occurrence on; the fields are those of `List.splitOn`.

- `strstr_eq_none`, `strstr_first`: nothing is found exactly if there is no occurrence, and what is found is the first.
- `field_ends_iff`: a text without separators ends some field exactly if it occurs at the end of the whole text or in
  front of a separator.
-/
import Mathlib.Tactic

namespace AufsUtil.Substring

variable {α : Type} [DecidableEq α]

/-- strstr(3) -/
def strstr (sub : List α) : List α → Option (List α)
  | [] => if sub = [] then some [] else none
  | c :: s => if sub <+: c :: s then some (c :: s) else strstr sub s

theorem strstr_eq_none {sub s : List α} : strstr sub s = none ↔ ¬ sub <:+: s := by
  induction s with
  | nil => simp [strstr]
  | cons c s ih => by_cases h : sub <+: c :: s <;> simp [strstr, List.infix_cons_iff, h, ih]

/-- what is found starts with an occurrence, and there is none before -/
theorem strstr_first {sub s f : List α} (h : strstr sub s = some f) :
    ∃ x, s = x ++ f ∧ sub <+: f ∧ ∀ x' y, s = x' ++ sub ++ y → x.length ≤ x'.length := by
  induction s with
  | nil =>
    by_cases hsub : sub = []
    · rw [strstr, if_pos hsub, Option.some.injEq] at h
      exact ⟨[], h, hsub ▸ List.nil_prefix, fun _ _ _ => Nat.zero_le _⟩
    · rw [strstr, if_neg hsub] at h
      cases h
  | cons c s ih =>
    rw [strstr] at h
    split_ifs at h with hsub
    · rw [Option.some.injEq] at h
      exact ⟨[], h, h ▸ hsub, fun _ _ _ => Nat.zero_le _⟩
    · obtain ⟨x, hs, hf, hfirst⟩ := ih h
      refine ⟨c :: x, by rw [hs]; rfl, hf, ?_⟩
      intro x' y hx'
      cases x' with
      | nil => exact absurd ⟨y, hx'.symm⟩ hsub
      | cons d x' =>
        rw [List.cons_append, List.cons_append, List.cons.injEq] at hx'
        exact Nat.succ_le_succ (hfirst x' y hx'.2)

/-! ## Fields -/

/-- a field is followed by a separator or by nothing -/
theorem field_at {a : α} (s : List α) : ∀ f ∈ s.splitOn a, ∃ x y, s = x ++ f ++ y ∧ ∀ c ∈ y.head?, c = a := by
  by_cases ha : a ∈ s
  · obtain ⟨u, v, hs, hu⟩ := List.eq_append_cons_of_mem ha
    have hlt : v.length < s.length := by rw [hs, List.length_append, List.length_cons]; omega
    intro f hf
    rw [hs, List.splitOn_append_cons_self_of_not_mem hu, List.mem_cons] at hf
    rcases hf with rfl | hf
    · exact ⟨[], a :: v, by simp [hs], by simp⟩
    · obtain ⟨x, y, hv, hy⟩ := field_at v f hf
      exact ⟨u ++ a :: x, y, by simp [hs, hv], hy⟩
  · intro f hf
    rw [List.splitOn_eq_singleton ha, List.mem_singleton] at hf
    exact ⟨[], [], by simp [hf], by simp⟩
termination_by s.length

/-- the last field ends as the text does -/
theorem last_field {a : α} {sub : List α} (ha : a ∉ sub) (x : List α) : ∃ f ∈ (x ++ sub).splitOn a, sub <:+ f := by
  by_cases hx : a ∈ x
  · obtain ⟨u, v, rfl, -⟩ := List.eq_append_cons_of_mem hx
    have hlt : v.length < (u ++ a :: v).length := by rw [List.length_append, List.length_cons]; omega
    obtain ⟨f, hf, hsub⟩ := last_field ha v
    refine ⟨f, ?_, hsub⟩
    rw [List.append_assoc, List.cons_append, List.splitOn_append_cons_self]
    exact List.mem_append_right _ hf
  · refine ⟨x ++ sub, ?_, List.suffix_append _ _⟩
    rw [List.splitOn_eq_singleton (by simp [hx, ha])]
    exact List.mem_singleton_self _
termination_by x.length

/-- **Fields that end with a text.** They are its occurrences at the end or in front of a separator. -/
theorem field_ends_iff {a : α} {sub s : List α} (ha : a ∉ sub) :
    (∃ f ∈ s.splitOn a, sub <:+ f) ↔ ∃ x y, s = x ++ sub ++ y ∧ ∀ c ∈ y.head?, c = a := by
  constructor
  · rintro ⟨f, hf, u, rfl⟩
    obtain ⟨x, y, hs, hy⟩ := field_at s _ hf
    exact ⟨x ++ u, y, by simp [hs], hy⟩
  · rintro ⟨x, y, rfl, hy⟩
    obtain ⟨f, hf, hsub⟩ := last_field ha x
    cases y with
    | nil => exact ⟨f, by rwa [List.append_nil], hsub⟩
    | cons c y =>
      obtain rfl : c = a := hy c rfl
      refine ⟨f, ?_, hsub⟩
      rw [List.splitOn_append_cons_self]
      exact List.mem_append_left _ hf

end AufsUtil.Substring
