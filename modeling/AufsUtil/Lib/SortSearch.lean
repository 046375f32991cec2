/-
qsort(3), bsearch(3) and a stable sort by what is promised of them, no more.

`Qsort` is any function that returns a rearrangement of its argument in non-descending order; elements that compare
equal come out in any order; with `StableSort` they keep their order. `Bsearch` is any function that, on an array in
non-descending order, returns the index of an element that compares equal to the key if there is one; which one is
unspecified when several do. Both are structures that carry their specification, so a result that takes them as
parameters holds for every C library.

- `Bsearch.eq_findIdx`: on a sorted list in which the key occurs at most once, the binary search returns the index that
  a linear search from the front returns, or both find nothing.
- `bisect_eq_some_iff`: on any list, the halving that C libraries do (`bisect`) comes to an index exactly if the
  elements it looks at on the way there (`probes`) compare as their places do.
- `StableSort.lex`: an order that the elements had before is, after a stable sort, their order among equal keys.
- `Qsort.insertion`, `StableSort.merge`, `Bsearch.linear`, `Bsearch.bisection`: the specifications can be met.
-/
import Mathlib.Tactic
import Mathlib.Data.List.Sort

namespace AufsUtil.SortSearch

variable {α κ : Type}

/-- the comparator's order on the elements, by a key -/
def Le (ord : κ → κ → Ordering) (key : α → κ) (a b : α) : Prop := (ord (key a) (key b)).isLE = true

instance (ord : κ → κ → Ordering) (key : α → κ) : DecidableRel (Le ord key) :=
  fun a b => inferInstanceAs (Decidable ((ord (key a) (key b)).isLE = true))

structure Qsort (ord : κ → κ → Ordering) (key : α → κ) where
  sort : List α → List α
  perm : ∀ l, (sort l).Perm l
  sorted : ∀ l, (sort l).Pairwise (Le ord key)

/-- a sort that leaves elements which compare equal in their order -/
structure StableSort (ord : κ → κ → Ordering) (key : α → κ) extends Qsort ord key where
  stable : ∀ l q, (sort l).filter (fun a => ord q (key a) = .eq) = l.filter fun a => ord q (key a) = .eq

structure Bsearch (ord : κ → κ → Ordering) (key : α → κ) where
  search : κ → List α → Option ℕ
  sound : ∀ q l i, search q l = some i → ∃ a, l[i]? = some a ∧ ord q (key a) = .eq
  complete : ∀ q l, l.Pairwise (Le ord key) → (∃ a ∈ l, ord q (key a) = .eq) → (search q l).isSome

section Search

variable {ord : κ → κ → Ordering} {key : α → κ} [Std.LawfulEqCmp ord]

/-- **Binary search agrees with linear search** on a sorted list in which no two elements have the key looked for. -/
theorem Bsearch.eq_findIdx (B : Bsearch ord key) [DecidableEq κ] (q : κ) (l : List α) (hs : l.Pairwise (Le ord key))
    (huniq : ∀ (i j : ℕ) (a b : α), l[i]? = some a → l[j]? = some b → key a = q → key b = q → i = j) :
    B.search q l = l.findIdx? fun a => key a = q := by
  cases hf : l.findIdx? fun a => key a = q with
  | none =>
    rw [List.findIdx?_eq_none_iff] at hf
    cases hb : B.search q l with
    | none => rfl
    | some i =>
      obtain ⟨a, ha, hq⟩ := B.sound q l i hb
      have := hf a (List.mem_of_getElem? ha)
      simp [← Std.LawfulEqCmp.eq_of_compare hq] at this
  | some j =>
    obtain ⟨hj, hkj, -⟩ := List.findIdx?_eq_some_iff_getElem.1 hf
    have hkj' : key l[j] = q := by simpa using hkj
    have hex : ∃ a ∈ l, ord q (key a) = .eq := by
      refine ⟨l[j], List.getElem_mem hj, ?_⟩
      rw [hkj']
      exact Std.ReflCmp.compare_self
    obtain ⟨i, hi⟩ := Option.isSome_iff_exists.1 (B.complete q l hs hex)
    obtain ⟨a, ha, hq⟩ := B.sound q l i hi
    rw [hi, huniq i j a l[j] ha (List.getElem?_eq_getElem hj) (Std.LawfulEqCmp.eq_of_compare hq).symm hkj']

/-- linear search meets the specification of bsearch -/
def Bsearch.linear (ord : κ → κ → Ordering) (key : α → κ) : Bsearch ord key where
  search q l := l.findIdx? fun a => ord q (key a) = .eq
  sound q l i h := by
    obtain ⟨hi, ha, -⟩ := List.findIdx?_eq_some_iff_getElem.1 h
    exact ⟨l[i], List.getElem?_eq_getElem hi, by simpa using ha⟩
  complete q l _ h := by
    obtain ⟨a, ha, hq⟩ := h
    simpa using ⟨a, ha, hq⟩

end Search

section Bisection

/-- the loop of bsearch(3) over the indices from l up to u; `cmp` compares the key with the element at an index -/
def bisect (cmp : ℕ → Ordering) : ℕ → ℕ → ℕ → Option ℕ
  | 0, _, _ => none
  | fuel + 1, l, u =>
    if l < u then
      match cmp ((l + u) / 2) with
      | .lt => bisect cmp fuel l ((l + u) / 2)
      | .gt => bisect cmp fuel ((l + u) / 2 + 1) u
      | .eq => some ((l + u) / 2)
    else none

/-- the indices between l and u that are looked at before the loop comes to k -/
def probes (k : ℕ) : ℕ → ℕ → ℕ → List ℕ
  | 0, _, _ => []
  | fuel + 1, l, u =>
    match compare k ((l + u) / 2) with
    | .lt => (l + u) / 2 :: probes k fuel l ((l + u) / 2)
    | .gt => (l + u) / 2 :: probes k fuel ((l + u) / 2 + 1) u
    | .eq => []

variable {cmp : ℕ → Ordering} {k : ℕ}

/-- what is found compares equal, and is where it was looked for -/
theorem bisect_sound {fuel l u : ℕ} (h : bisect cmp fuel l u = some k) : cmp k = .eq ∧ l ≤ k ∧ k < u := by
  induction fuel generalizing l u with
  | zero => cases h
  | succ fuel ih =>
    rw [bisect] at h
    split_ifs at h with hlu
    cases hc : cmp ((l + u) / 2) with
    | lt =>
      rw [hc] at h
      obtain ⟨heq, hle, hlt⟩ := ih h
      exact ⟨heq, hle, by omega⟩
    | gt =>
      rw [hc] at h
      obtain ⟨heq, hle, hlt⟩ := ih h
      exact ⟨heq, by omega, hlt⟩
    | eq =>
      rw [hc] at h
      obtain rfl := Option.some.inj h
      exact ⟨hc, by omega, by omega⟩

/-- **Halving comes to an index exactly if nothing on the way misleads it.** -/
theorem bisect_eq_some_iff (heq : cmp k = .eq) {fuel l u : ℕ} (hl : l ≤ k) (hu : k < u) (hfuel : u - l ≤ fuel) :
    bisect cmp fuel l u = some k ↔ ∀ m ∈ probes k fuel l u, cmp m = compare k m := by
  induction fuel generalizing l u with
  | zero => omega
  | succ fuel ih =>
    rw [bisect, if_pos (by omega), probes]
    rcases lt_trichotomy k ((l + u) / 2) with hlt | hmid | hgt
    · -- k is on the left of the middle
      have hk : compare k ((l + u) / 2) = .lt := Nat.compare_eq_lt.2 hlt
      rw [hk]
      simp only [List.forall_mem_cons, hk]
      cases hc : cmp ((l + u) / 2) with
      | lt => simpa using ih hl hlt (by omega)
      | gt =>
        simp only [reduceCtorEq, false_and, iff_false]
        intro h
        have := bisect_sound h
        omega
      | eq =>
        simp only [reduceCtorEq, false_and, iff_false, Option.some.injEq]
        omega
    · have hk : compare k ((l + u) / 2) = .eq := Nat.compare_eq_eq.2 hmid
      rw [hk, ← hmid, heq]
      simp
    · have hk : compare k ((l + u) / 2) = .gt := Nat.compare_eq_gt.2 hgt
      rw [hk]
      simp only [List.forall_mem_cons, hk]
      cases hc : cmp ((l + u) / 2) with
      | gt => simpa using ih hgt hu (by omega)
      | lt =>
        simp only [reduceCtorEq, false_and, iff_false]
        intro h
        have := bisect_sound h
        omega
      | eq =>
        simp only [reduceCtorEq, false_and, iff_false, Option.some.injEq]
        omega

/-- the way leads over other indices -/
theorem probes_spec {fuel l u m : ℕ} (hl : l ≤ k) (hu : k < u) (h : m ∈ probes k fuel l u) : m ≠ k ∧ m < u := by
  induction fuel generalizing l u with
  | zero => cases h
  | succ fuel ih =>
    rw [probes] at h
    cases hc : compare k ((l + u) / 2) with
    | lt =>
      rw [hc] at h
      have hk := Nat.compare_eq_lt.1 hc
      rcases List.mem_cons.1 h with rfl | h
      · omega
      · obtain ⟨hne, hlt⟩ := ih hl hk h
        exact ⟨hne, by omega⟩
    | gt =>
      rw [hc] at h
      have hk := Nat.compare_eq_gt.1 hc
      rcases List.mem_cons.1 h with rfl | h
      · omega
      · exact ih hk hu h
    | eq =>
      rw [hc] at h
      cases h

/-- it finds something if the elements before one that compares equal compare below, or equal, and
those behind it above -/
theorem bisect_isSome (heq : cmp k = .eq) (hbelow : ∀ m < k, cmp m ≠ .lt) (habove : ∀ m, k < m → cmp m ≠ .gt)
    {fuel l u : ℕ} (hl : l ≤ k) (hu : k < u) (hfuel : u - l ≤ fuel) : (bisect cmp fuel l u).isSome := by
  induction fuel generalizing l u with
  | zero => omega
  | succ fuel ih =>
    rw [bisect, if_pos (by omega)]
    cases hc : cmp ((l + u) / 2) with
    | lt =>
      have hlt : k < (l + u) / 2 := by
        rcases lt_trichotomy k ((l + u) / 2) with h | h | h
        · exact h
        · rw [h, hc] at heq
          cases heq
        · exact absurd hc (hbelow _ h)
      exact ih hl hlt (by omega)
    | gt =>
      have hgt : (l + u) / 2 < k := by
        rcases lt_trichotomy k ((l + u) / 2) with h | h | h
        · exact absurd hc (habove _ h)
        · rw [h, hc] at heq
          cases heq
        · exact h
      exact ih hgt hu (by omega)
    | eq => rfl

/-- how the key compares with the element at an index -/
def cmp_at (ord : κ → κ → Ordering) (key : α → κ) (q : κ) (l : List α) (i : ℕ) : Ordering :=
  match l[i]? with
  | some a => ord q (key a)
  | none => .lt

theorem cmp_at_of_get {ord : κ → κ → Ordering} {key : α → κ} {q : κ} {l : List α} {i : ℕ} {a : α} (h : l[i]? = some a) :
    cmp_at ord key q l i = ord q (key a) := by
  rw [cmp_at, h]

/-- halving meets the specification of bsearch -/
def Bsearch.bisection (ord : κ → κ → Ordering) [Std.TransCmp ord] (key : α → κ) : Bsearch ord key where
  search q l := bisect (cmp_at ord key q l) l.length 0 l.length
  sound q l i h := by
    obtain ⟨heq, -, hlt⟩ := bisect_sound h
    refine ⟨l[i], List.getElem?_eq_getElem hlt, ?_⟩
    rwa [cmp_at_of_get (List.getElem?_eq_getElem hlt)] at heq
  complete q l hs h := by
    obtain ⟨a, ha, hq⟩ := h
    obtain ⟨k, hk⟩ := List.mem_iff_getElem?.1 ha
    have hklt := (List.getElem?_eq_some_iff.1 hk).1
    have hsorted : ∀ (i j : ℕ) (b c : α), i < j → l[i]? = some b → l[j]? = some c → Le ord key b c := by
      intro i j b c hij hb hc
      obtain ⟨hi, rfl⟩ := List.getElem?_eq_some_iff.1 hb
      obtain ⟨hj, rfl⟩ := List.getElem?_eq_some_iff.1 hc
      exact List.pairwise_iff_getElem.1 hs i j hi hj hij
    refine bisect_isSome (by rw [cmp_at_of_get hk]; exact hq) ?_ ?_ (Nat.zero_le k) hklt le_rfl
    · intro m hm hlt
      have hget : l[m]? = some l[m] := List.getElem?_eq_getElem (by omega)
      rw [cmp_at_of_get hget] at hlt
      have := Std.TransCmp.lt_of_lt_of_isLE hlt (hsorted m k _ a hm hget hk)
      rw [hq] at this
      cases this
    · intro m hm hgt
      cases hget : l[m]? with
      | none =>
        rw [cmp_at, hget] at hgt
        cases hgt
      | some b =>
        rw [cmp_at_of_get hget] at hgt
        have := Std.TransCmp.lt_of_isLE_of_lt (hsorted k m a b hm hk hget) (Std.OrientedCmp.lt_of_gt hgt)
        rw [Std.OrientedCmp.eq_symm hq] at this
        cases this

end Bisection

section Sorting

variable (ord : κ → κ → Ordering) [Std.TransCmp ord] (key : α → κ)

theorem le_total (a b : α) : Le ord key a b ∨ Le ord key b a := by
  unfold Le
  have hsw : ord (key a) (key b) = (ord (key b) (key a)).swap := Std.OrientedCmp.eq_swap
  rw [hsw]
  cases ord (key b) (key a) <;> simp

theorem le_trans' (a b c : α) (hab : Le ord key a b) (hbc : Le ord key b c) : Le ord key a c := by
  exact Std.TransCmp.isLE_trans hab hbc

/-- insertion sort meets the specification of qsort -/
def Qsort.insertion : Qsort ord key where
  sort l := l.insertionSort (Le ord key)
  perm l := List.perm_insertionSort (Le ord key) l
  sorted l := by
    have : Std.Total (Le ord key) := ⟨le_total ord key⟩
    have : IsTrans α (Le ord key) := ⟨le_trans' ord key⟩
    exact List.pairwise_insertionSort (Le ord key) l

variable {ord key}

/-- **A stable sort sorts by two keys.** What held between earlier and later elements before holds between those with
equal keys afterwards. -/
theorem StableSort.lex (S : StableSort ord key) {R : α → α → Prop} {l : List α} (h : l.Pairwise R) :
    (S.sort l).Pairwise fun a b => Le ord key a b ∧ (ord (key a) (key b) = .eq → R a b) := by
  refine (S.sorted l).imp₂ (fun _ _ hle hR => ⟨hle, hR⟩) ?_
  rw [List.pairwise_iff_forall_sublist]
  intro a b hab heq
  -- both are among the elements with the key of a, which the sort has left alone
  have hkept : [a, b].Sublist (l.filter fun x => ord (key a) (key x) = .eq) := by
    rw [← S.stable l (key a)]
    have hboth : [a, b].filter (fun x => ord (key a) (key x) = .eq) = [a, b] := by
      simp [heq, Std.ReflCmp.compare_self]
    rw [← hboth]
    exact hab.filter _
  exact List.pairwise_iff_forall_sublist.1 h (hkept.trans List.filter_sublist)

/-- elements with one key are in order, whichever order they are in -/
theorem pairwise_filter_eq (l : List α) (q : κ) : (l.filter fun a => ord q (key a) = .eq).Pairwise (Le ord key) := by
  refine List.pairwise_of_forall_mem_list fun a ha b hb => ?_
  have hqa : ord q (key a) = .eq := by simpa using (List.mem_filter.1 ha).2
  have hqb : ord q (key b) = .eq := by simpa using (List.mem_filter.1 hb).2
  have haq : ord (key a) q = .eq := Std.OrientedCmp.eq_symm hqa
  rw [Le, Std.TransCmp.eq_trans haq hqb]
  rfl

variable (ord key) in
/-- merge sort is a stable sort -/
def StableSort.merge : StableSort ord key where
  sort l := l.mergeSort fun a b => (ord (key a) (key b)).isLE
  perm l := List.mergeSort_perm l _
  sorted l := List.pairwise_mergeSort (le_trans' ord key) (fun a b => by simpa [Le] using le_total ord key a b) l
  stable l q := by
    set sorted := l.mergeSort fun a b => (ord (key a) (key b)).isLE with hsorted
    have hsub : (l.filter fun a => ord q (key a) = .eq).Sublist sorted :=
      List.sublist_mergeSort (le_trans' ord key) (fun a b => by simpa [Le] using le_total ord key a b)
        (pairwise_filter_eq l q) List.filter_sublist
    have hsub' : (l.filter fun a => ord q (key a) = .eq).Sublist (sorted.filter fun a => ord q (key a) = .eq) := by
      have := hsub.filter fun a => ord q (key a) = .eq
      rwa [List.filter_filter, List.filter_congr fun a _ => Bool.and_self _] at this
    refine (hsub'.eq_of_length ?_).symm
    exact ((List.mergeSort_perm l _).filter _).length_eq.symm

end Sorting

/-- a rearrangement of the images is the image of a rearrangement -/
theorem exists_map_of_perm {β : Type} {f : α → β} {l : List α} {m : List β} (h : m.Perm (l.map f)) :
    ∃ l' : List α, l'.Perm l ∧ l'.map f = m := by
  generalize hn : l.map f = n at h
  induction h generalizing l with
  | nil => exact ⟨l, .refl l, hn⟩
  | @cons x m n _ ih =>
    obtain ⟨a, k, rfl, rfl, hk⟩ := List.map_eq_cons_iff.1 hn
    obtain ⟨k', hperm, rfl⟩ := ih hk
    exact ⟨a :: k', hperm.cons a, rfl⟩
  | swap x y m =>
    obtain ⟨a, k, rfl, rfl, hk⟩ := List.map_eq_cons_iff.1 hn
    obtain ⟨b, j, rfl, rfl, rfl⟩ := List.map_eq_cons_iff.1 hk
    exact ⟨b :: a :: j, .swap a b j, rfl⟩
  | trans _ _ ih₁ ih₂ =>
    obtain ⟨k, hk, hmap⟩ := ih₂ hn
    obtain ⟨k', hk', hmap'⟩ := ih₁ hmap
    exact ⟨k', hk'.trans hk, hmap'⟩

end AufsUtil.SortSearch
