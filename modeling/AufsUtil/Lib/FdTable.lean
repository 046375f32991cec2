/-
The open file descriptors of a process.

A table lists the descriptors that are open, each with what it refers to. open(2) and its like take the lowest number
that is free (`lowest`); close(2) gives a number back, also when it reports an error.

- `closed_opened`: a descriptor that is closed again leaves no trace.
- `closed_cons`: closing a descriptor below another one.
-/
import Mathlib.Tactic

namespace AufsUtil.FdTable

variable {α : Type}

abbrev Table (α : Type) := List (ℕ × α)

def Table.fds (t : Table α) : List ℕ := t.map Prod.fst

theorem exists_free (t : Table α) : ∃ fd, fd ∉ t.fds := by
  obtain ⟨fd, hfd⟩ := Infinite.exists_notMem_finset t.fds.toFinset
  exact ⟨fd, fun h => hfd (List.mem_toFinset.2 h)⟩

/-- the descriptor that the next open gets -/
def Table.lowest (t : Table α) : ℕ := Nat.find (exists_free t)

theorem lowest_free (t : Table α) : t.lowest ∉ t.fds := Nat.find_spec (exists_free t)

def Table.opened (t : Table α) (a : α) : Table α := (t.lowest, a) :: t

def Table.closed (t : Table α) (fd : ℕ) : Table α := t.filter (·.1 ≠ fd)

theorem closed_free {t : Table α} {fd : ℕ} (h : fd ∉ t.fds) : t.closed fd = t := by
  refine List.filter_eq_self.2 fun e he => ?_
  have hne : e.1 ≠ fd := by
    rintro rfl
    exact h (List.mem_map_of_mem he)
  simpa using hne

@[simp] theorem closed_opened (t : Table α) (a : α) : (t.opened a).closed t.lowest = t := by
  have hrest := closed_free (lowest_free t)
  unfold Table.closed at hrest ⊢
  rw [Table.opened, List.filter_cons_of_neg (by simp), hrest]

theorem closed_cons {t : Table α} {fd fd' : ℕ} (a : α) (h : fd ≠ fd') :
    Table.closed ((fd, a) :: t) fd' = (fd, a) :: t.closed fd' := by
  unfold Table.closed
  rw [List.filter_cons_of_pos (by simpa using h)]

/-- a descriptor just opened is none of those that are open -/
theorem lowest_ne {t : Table α} {fd : ℕ} (h : fd ∈ t.fds) : t.lowest ≠ fd := by
  rintro rfl
  exact lowest_free t h

end AufsUtil.FdTable
