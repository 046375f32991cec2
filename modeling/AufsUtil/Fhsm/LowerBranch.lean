/-
Looking up the lower branch of a move-down (`au_stbr_bsearch` in `fhsm/mvdown.c`).

The kernel tells do_mvdown the brid of the branch that a file went to, and do_mvdown looks for its entry in comm->stbr
by bsearch(3). The array has one entry for every watermark; a notification fills in the first of them, one for every
FHSM branch, from the top of the stack down, and leaves the others as they were. Nobody sorts it.

- `lower_found_iff`: an entry is found exactly if every entry that the halving looks at on the way has a smaller brid
  when it stands before, and a greater one when it stands behind.
- `unmisled_of_ascending`: as it is if all brids ascend, those of the old entries included.
- `lower_missed`: in a stack whose brids do not ascend it may not be.

bsearch(3) is the loop that glibc and musl have (`Bsearch.bisection`); the C standard says nothing about an array that
is not in order. brid is an int16_t, so the difference of two in stbr_compar has the sign of their comparison.
-/
import Mathlib.Tactic
import AufsUtil.Lib.SortSearch
import AufsUtil.Fhsm.Mvdown

namespace AufsUtil.Fhsm

open AufsUtil.SortSearch

variable {S : Type}

/-- bsearch(3) over comm->stbr -/
def halving : Bsearch (compare : ℤ → ℤ → Ordering) (Stbr.brid (S := S)) := .bisection compare Stbr.brid

/-- no entry that the halving looks at before it comes to index k leads it astray -/
def Unmisled (stbr : List (Stbr S)) (k : ℕ) (brid : ℤ) : Prop :=
  ∀ m ∈ probes k stbr.length 0 stbr.length, ∀ e, stbr[m]? = some e →
    (m < k → e.brid < brid) ∧ (k < m → brid < e.brid)

/-- comparing the brids says which of two places is the first one -/
theorem compare_places {a b : ℤ} {k m : ℕ} (hne : m ≠ k) :
    compare a b = compare k m ↔ (m < k → b < a) ∧ (k < m → a < b) := by
  rcases lt_or_gt_of_ne hne with hlt | hgt
  · rw [Nat.compare_eq_gt.2 hlt, compare_gt_iff_gt]
    exact ⟨fun h => ⟨fun _ => h, fun h' => absurd h' (by omega)⟩, fun h => h.1 hlt⟩
  · rw [Nat.compare_eq_lt.2 hgt, compare_lt_iff_lt]
    exact ⟨fun h => ⟨fun h' => absurd h' (by omega), fun _ => h⟩, fun h => h.2 hgt⟩

/-- in an array whose brids ascend, nothing misleads the search -/
theorem unmisled_of_ascending {stbr : List (Stbr S)} (h : stbr.Pairwise fun a b => a.brid < b.brid) {k : ℕ} {c : Stbr S}
    (hc : stbr[k]? = some c) : Unmisled stbr k c.brid := by
  have hsorted : ∀ (i j : ℕ) (a b : Stbr S), i < j → stbr[i]? = some a → stbr[j]? = some b → a.brid < b.brid := by
    intro i j a b hij ha hb
    obtain ⟨hi, rfl⟩ := List.getElem?_eq_some_iff.1 ha
    obtain ⟨hj, rfl⟩ := List.getElem?_eq_some_iff.1 hb
    exact List.pairwise_iff_getElem.1 h i j hi hj hij
  intro m _ e he
  exact ⟨fun hmk => hsorted m k e c hmk he hc, fun hkm => hsorted k m c e hkm hc he⟩

/-- **The lower branch is found exactly if the halving is not misled.** For every array, whatever order the branches are
stacked in and whatever earlier notifications have left behind them, and every entry of it. -/
theorem lower_found_iff (stbr : List (Stbr S)) (k : ℕ) (c : Stbr S) (hc : stbr[k]? = some c) :
    au_stbr_bsearch halving c.brid stbr = some k ↔ Unmisled stbr k c.brid := by
  have hk := (List.getElem?_eq_some_iff.1 hc).1
  have heq : cmp_at compare Stbr.brid c.brid stbr k = .eq := by
    rw [cmp_at_of_get hc]
    exact Std.ReflCmp.compare_self
  have hiff : au_stbr_bsearch halving c.brid stbr = some k ↔
      ∀ m ∈ probes k stbr.length 0 stbr.length, cmp_at compare Stbr.brid c.brid stbr m = compare k m :=
    bisect_eq_some_iff heq (Nat.zero_le k) hk le_rfl
  rw [hiff]
  refine forall₂_congr fun m hm => ?_
  obtain ⟨hne, hlt⟩ := probes_spec (Nat.zero_le k) hk hm
  have hget : stbr[m]? = some stbr[m] := List.getElem?_eq_getElem hlt
  rw [cmp_at_of_get hget, compare_places hne]
  simp only [hget, Option.some.injEq, forall_eq']

/-- three branches numbered from the top down, and a fourth entry that is not used yet -/
theorem lower_found_third : au_stbr_bsearch halving 3 [⟨1, ()⟩, ⟨2, ()⟩, ⟨3, ()⟩, ⟨0, ()⟩] = some 2 :=
  (lower_found_iff [⟨1, ()⟩, ⟨2, ()⟩, ⟨3, ()⟩, ⟨0, ()⟩] 2 ⟨3, ()⟩ rfl).2 (by
    intro m hm
    have hnone : m ∈ probes 2 4 0 4 := hm
    exact absurd hnone List.not_mem_nil)

/-- two branches were inserted above the first one: its brid is not found, though its entry is there -/
theorem lower_missed : ([⟨1, ()⟩, ⟨2, ()⟩, ⟨0, ()⟩].map Stbr.brid).Nodup ∧ au_stbr_bsearch halving 0
    [⟨1, ()⟩, ⟨2, ()⟩, ⟨0, ()⟩] = none := by
  decide +kernel

/-- and in an array with room for more branches an ascending stack does not help: the unused entries have brid 0 -/
example : au_stbr_bsearch halving 1 [⟨0, ()⟩, ⟨1, ()⟩, ⟨0, ()⟩, ⟨0, ()⟩, ⟨0, ()⟩] = none := by decide +kernel

end AufsUtil.Fhsm
