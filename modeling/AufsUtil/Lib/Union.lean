/-
Unions of trees.

A tree is what there is at each path. A layer is a tree that in addition hides names of the layers below it, each in one
directory, and closes directories to all that is below. The union of some layers, the first one on top, shows at a path
what the first layer has there that has anything; a file hides everything below it, and the directories of one path are
merged. What a layer has itself is shown even where it hides the name.

- `view_top`: what is shown under a directory of the first layer.
- `view_empty`: a first layer without anything is transparent.
- `view_eq_top_iff`: when the union shows no more than a tree that the first layer contains.
- `view_over_copy_iff`: when something may be taken away from a layer above a copy of what is shown.

A path is its names, the last one first.
-/
import Mathlib.Tactic

namespace AufsUtil.Union

variable {N C : Type}

/-! ## Layers and what they show -/

inductive Node (C : Type) where
  | dir
  | leaf (c : C)
deriving DecidableEq, Repr

structure Layer (N C : Type) where
  node : List N → Option (Node C)
  /-- a name in a directory -/
  hides : List N → N → Bool
  /-- a directory -/
  opq : List N → Bool

/-- the first one of some layers that has this name in the directory d -/
def first (n : N) (d : List N) : List (Layer N C) → Option (Node C)
  | [] => none
  | l :: S =>
    match l.node (n :: d) with
    | some x => some x
    | none => if l.hides d n then none else first n d S

/-- the layers whose directories of this name are merged -/
def merged (n : N) (d : List N) : List (Layer N C) → List (Layer N C)
  | [] => []
  | l :: S =>
    match l.node (n :: d) with
    | some .dir => l :: if l.opq (n :: d) then [] else merged n d S
    | some (.leaf _) => []
    | none => if l.hides d n then [] else merged n d S

/-- the layers that take part in the directory at a path -/
def stack (L : List (Layer N C)) : List N → List (Layer N C)
  | [] => L
  | n :: d => merged n d (stack L d)

def view (L : List (Layer N C)) : List N → Option (Node C)
  | [] => some .dir
  | n :: d => first n d (stack L d)

/-- what is in a directory -/
structure Closed (node : List N → Option (Node C)) : Prop where
  root : node [] = some .dir
  parent : ∀ n d, node (n :: d) ≠ none → node d = some .dir

theorem first_eq_dir (n : N) (d : List N) (S : List (Layer N C)) : first n d S = some .dir ↔ merged n d S ≠ [] := by
  induction S with
  | nil => simp [first, merged]
  | cons l S ih =>
    rw [first, merged]
    cases l.node (n :: d) with
    | none =>
      by_cases hh : l.hides d n
      · simp [hh]
      · simpa [hh] using ih
    | some x => cases x <;> simp

theorem view_closed (L : List (Layer N C)) : Closed (view L) where
  root := rfl
  parent n d h := by
    cases d with
    | nil => rfl
    | cons m d =>
      refine (first_eq_dir m d _).2 fun hnil => h ?_
      rw [view, stack, hnil, first]

/-! ## The first layer -/

/-- the layers below that take part in the directory at a path -/
def under (l : Layer N C) (L : List (Layer N C)) : List N → List (Layer N C)
  | [] => L
  | n :: d => if l.opq (n :: d) then [] else merged n d (under l L d)

/-- no directory on the way to this one is closed -/
def Layer.Open (l : Layer N C) (d : List N) : Prop := ∀ e, e <:+ d → e ≠ [] → l.opq e = false

theorem under_eq_stack {l : Layer N C} (L : List (Layer N C)) {d : List N} (ho : l.Open d) :
    under l L d = stack L d := by
  induction d with
  | nil => rfl
  | cons n d ih =>
    rw [under, ho (n :: d) List.suffix_rfl (List.cons_ne_nil n d), if_neg Bool.false_ne_true,
      ih fun e he hne => ho e (he.trans (List.suffix_cons n d)) hne, stack]

theorem stack_top {l : Layer N C} (hl : Closed l.node) (L : List (Layer N C)) {d : List N} (hd : l.node d = some .dir) :
    stack (l :: L) d = l :: under l L d := by
  induction d with
  | nil => rfl
  | cons n d ih =>
    have hparent := hl.parent n d (by rw [hd]; exact Option.some_ne_none _)
    rw [stack, ih hparent, merged, hd, under]

/-- **Under a directory of the first layer** its names come first. -/
theorem view_top {l : Layer N C} (hl : Closed l.node) (L : List (Layer N C)) {d : List N} (hd : l.node d = some .dir)
    (n : N) :
    view (l :: L) (n :: d) =
      match l.node (n :: d) with
      | some x => some x
      | none => if l.hides d n then none else first n d (under l L d) := by
  rw [view, stack_top hl L hd, first]

theorem view_of_top {l : Layer N C} (hl : Closed l.node) (L : List (Layer N C)) {p : List N} (hp : l.node p ≠ none) :
    view (l :: L) p = l.node p := by
  cases p with
  | nil => exact hl.root.symm
  | cons n d =>
    rw [view_top hl L (hl.parent n d hp)]
    cases hnode : l.node (n :: d) with
    | none => exact absurd hnode hp
    | some x => rfl

/-- nothing is at the root of this layer, and nothing is hidden there -/
def Layer.Empty (l : Layer N C) : Prop := ∀ n, l.node [n] = none ∧ l.hides [] n = false

/-- **An empty layer** on top is transparent. -/
theorem view_empty {l : Layer N C} (hl : l.Empty) (L : List (Layer N C)) (p : List N) : view (l :: L) p = view L p := by
  have hstack : ∀ n d, stack (l :: L) (n :: d) = stack L (n :: d) := by
    intro n d
    induction d generalizing n with
    | nil => rw [stack, stack, stack, merged, (hl n).1, (hl n).2, stack, if_neg Bool.false_ne_true]
    | cons m d ih =>
      rw [stack, ih]
      rfl
  match p with
  | [] => rfl
  | [n] => rw [view, view, stack, first, (hl n).1, (hl n).2, stack, if_neg Bool.false_ne_true]
  | n :: m :: d => rw [view, hstack, view]

/-- **No more than a tree**: a first layer that contains a tree shows it and nothing else exactly if it is this tree,
and each name that is not in a directory of the tree is hidden by it or not shown by the layers below. -/
theorem view_eq_top_iff {l : Layer N C} (hl : Closed l.node) (L : List (Layer N C)) {V : List N → Option (Node C)}
    (hV : Closed V) (hnode : ∀ p, V p ≠ none → l.node p = V p) :
    (∀ p, view (l :: L) p = V p) ↔
      (∀ p, l.node p = V p) ∧ ∀ n d, V d = some .dir → V (n :: d) = none →
        l.hides d n = true ∨ first n d (under l L d) = none := by
  constructor
  · intro h
    have htop : ∀ p, l.node p = V p := by
      intro p
      by_cases hp : l.node p = none
      · by_contra hne
        exact hne (hnode p fun hnone => hne (hp.trans hnone.symm))
      · rw [← view_of_top hl L hp, h p]
    refine ⟨htop, fun n d hd hnone => ?_⟩
    have hshown := h (n :: d)
    rw [view_top hl L ((htop d).trans hd), htop, hnone] at hshown
    by_cases hh : l.hides d n = true
    · exact Or.inl hh
    · exact Or.inr (by simpa [hh] using hshown)
  · rintro ⟨htop, hbelow⟩ p
    induction p with
    | nil => exact hV.root.symm
    | cons n d ih =>
      by_cases hd : V d = some .dir
      · rw [view_top hl L ((htop d).trans hd), htop]
        cases hnone : V (n :: d) with
        | some x => rfl
        | none =>
          rcases hbelow n d hd hnone with hh | hfirst
          · simp [hh]
          · simp [hfirst]
      · have hnone : V (n :: d) = none := by
          by_contra hne
          exact hd (hV.parent n d hne)
        rw [hnone]
        by_contra hne
        exact hd (ih ▸ (view_closed _).parent n d hne)

/-! ## Some of the names -/

/-- a layer without the paths that have other names -/
def Layer.restrict (k : N → Bool) (l : Layer N C) : Layer N C where
  node p := if p.all k then l.node p else none
  hides d n := k n && l.hides d n
  opq := l.opq

theorem restrict_node {k : N → Bool} {p : List N} (hp : p.all k) (l : Layer N C) : (l.restrict k).node p = l.node p :=
  if_pos hp

theorem restrict_closed {k : N → Bool} {l : Layer N C} (hl : Closed l.node) : Closed (l.restrict k).node where
  root := hl.root
  parent n d h := by
    by_cases hp : (n :: d).all k
    · rw [restrict_node hp] at h
      rw [restrict_node (Bool.and_eq_true_iff.1 hp).2, hl.parent n d h]
    · exact absurd (if_neg hp) h

theorem restrict_hides {k : N → Bool} {n : N} (hn : k n = true) (l : Layer N C) (d : List N) :
    (l.restrict k).hides d n = l.hides d n := by
  change (k n && l.hides d n) = l.hides d n
  rw [hn, Bool.true_and]

theorem first_restrict {k : N → Bool} {n : N} {d : List N} (hp : (n :: d).all k) (S : List (Layer N C)) :
    first n d (S.map (Layer.restrict k)) = first n d S := by
  induction S with
  | nil => rfl
  | cons l S ih => rw [List.map_cons, first, first, restrict_node hp, restrict_hides (Bool.and_eq_true_iff.1 hp).1, ih]

theorem merged_restrict {k : N → Bool} {n : N} {d : List N} (hp : (n :: d).all k) (S : List (Layer N C)) :
    merged n d (S.map (Layer.restrict k)) = (merged n d S).map (Layer.restrict k) := by
  induction S with
  | nil => rfl
  | cons l S ih =>
    have hopq : (l.restrict k).opq = l.opq := rfl
    rw [List.map_cons, merged, merged, restrict_node hp, restrict_hides (Bool.and_eq_true_iff.1 hp).1, ih, hopq]
    cases l.node (n :: d) with
    | none => split_ifs <;> rfl
    | some x => cases x with
      | dir => dsimp only; split_ifs <;> rfl
      | leaf c => rfl

theorem stack_restrict {k : N → Bool} (L : List (Layer N C)) {d : List N} (hd : d.all k) :
    stack (L.map (Layer.restrict k)) d = (stack L d).map (Layer.restrict k) := by
  induction d with
  | nil => rfl
  | cons n d ih => rw [stack, ih (Bool.and_eq_true_iff.1 hd).2, merged_restrict hd, stack]

/-- **Each path by itself**: what is shown at a path depends on nothing but its own names. -/
theorem view_restrict {k : N → Bool} (L : List (Layer N C)) {p : List N} (hp : p.all k) :
    view (L.map (Layer.restrict k)) p = view L p := by
  cases p with
  | nil => rfl
  | cons n d => rw [view, stack_restrict L (Bool.and_eq_true_iff.1 hp).2, first_restrict hp, view]

theorem mem_of_mem_merged {l : Layer N C} {n : N} {d : List N} {S : List (Layer N C)} (h : l ∈ merged n d S) :
    l ∈ S := by
  induction S with
  | nil => exact h
  | cons t S ih =>
    rw [merged] at h
    cases hnode : t.node (n :: d) with
    | none =>
      simp only [hnode] at h
      split_ifs at h with hh
      · exact absurd h List.not_mem_nil
      · exact List.mem_cons_of_mem t (ih h)
    | some x => cases x with
      | leaf c => simp [hnode] at h
      | dir =>
        simp only [hnode, List.mem_cons] at h
        rcases h with rfl | h
        · exact List.mem_cons_self
        · split_ifs at h with hopq
          · exact absurd h List.not_mem_nil
          · exact List.mem_cons_of_mem t (ih h)

theorem mem_of_mem_stack {l : Layer N C} {L : List (Layer N C)} {d : List N} (h : l ∈ stack L d) : l ∈ L := by
  induction d with
  | nil => exact h
  | cons n d ih => exact ih (mem_of_mem_merged h)

theorem first_ne_none {n : N} {d : List N} {S : List (Layer N C)} (h : first n d S ≠ none) :
    ∃ l ∈ S, l.node (n :: d) ≠ none := by
  induction S with
  | nil => exact absurd rfl h
  | cons l S ih =>
    by_cases hnode : l.node (n :: d) = none
    · have hrest : first n d S ≠ none := by
        intro hnone
        rw [first, hnode, hnone] at h
        exact h (ite_self none)
      obtain ⟨t, ht, hne⟩ := ih hrest
      exact ⟨t, List.mem_cons_of_mem l ht, hne⟩
    · exact ⟨l, List.mem_cons_self, hnode⟩

theorem mem_of_mem_under {l t : Layer N C} {L : List (Layer N C)} {d : List N} (h : t ∈ under l L d) : t ∈ L := by
  induction d with
  | nil => exact h
  | cons n d ih =>
    rw [under] at h
    split_ifs at h
    · exact absurd h List.not_mem_nil
    · exact ih (mem_of_mem_merged h)

/-- **Nothing new**: what is shown is in some layer. -/
theorem view_ne_none {L : List (Layer N C)} {n : N} {d : List N} (h : view L (n :: d) ≠ none) :
    ∃ l ∈ L, l.node (n :: d) ≠ none := by
  obtain ⟨l, hl, hne⟩ := first_ne_none h
  exact ⟨l, mem_of_mem_stack hl, hne⟩

theorem view_restrict_none {k : N → Bool} (L : List (Layer N C)) {p : List N} (hp : ¬p.all k) :
    view (L.map (Layer.restrict k)) p = none := by
  cases p with
  | nil => exact absurd rfl hp
  | cons n d =>
    by_contra hne
    obtain ⟨l, hl, hnode⟩ := view_ne_none hne
    obtain ⟨l, -, rfl⟩ := List.mem_map.1 hl
    exact hnode (if_neg hp)

/-! ## Two layers -/

theorem first_cons (n : N) (d : List N) (l : Layer N C) (S : List (Layer N C)) :
    first n d (l :: S) = match l.node (n :: d) with
      | some x => some x
      | none => if l.hides d n then none else first n d S := rfl

theorem merged_cons (n : N) (d : List N) (l : Layer N C) (S : List (Layer N C)) :
    merged n d (l :: S) = match l.node (n :: d) with
      | some .dir => l :: if l.opq (n :: d) then [] else merged n d S
      | some (.leaf _) => []
      | none => if l.hides d n then [] else merged n d S := rfl

theorem first_one (n : N) (d : List N) (t : Layer N C) : first n d [t] = t.node (n :: d) := by
  rw [first_cons]
  cases t.node (n :: d) with
  | none => exact ite_self none
  | some x => rfl

theorem merged_one (n : N) (d : List N) (t : Layer N C) :
    merged n d [t] = match t.node (n :: d) with
      | some .dir => [t]
      | _ => [] := by
  rw [merged_cons, merged]
  cases t.node (n :: d) with
  | none => exact ite_self []
  | some x =>
    cases x with
    | dir => simp
    | leaf c => rfl

section Copy

variable {l T : Layer N C} {V : List N → Option (Node C)}

theorem merged_copy (hT : ∀ p, T.node p = V p) {n : N} {d : List N} (hd : V (n :: d) = some .dir) :
    merged n d [T] = [T] := by
  rw [merged_one, hT, hd]

theorem stack_copy (hV : Closed V) (hT : ∀ p, T.node p = V p) {d : List N} (hd : V d = some .dir) :
    stack [T] d = [T] := by
  induction d with
  | nil => rfl
  | cons n d ih =>
    rw [stack, ih (hV.parent n d (by rw [hd]; exact Option.some_ne_none _))]
    exact merged_copy hT hd

theorem under_open (hV : Closed V) (hT : ∀ p, T.node p = V p) {d : List N} (hd : V d = some .dir) (ho : l.Open d) :
    under l [T] d = [T] := (under_eq_stack [T] ho).trans (stack_copy hV hT hd)

theorem under_closed (T : Layer N C) {d : List N} (ho : ¬l.Open d) : under l [T] d = [] := by
  induction d with
  | nil => exact absurd (fun e he hne => absurd (List.suffix_nil.1 he) hne) ho
  | cons n d ih =>
    rw [under]
    split_ifs with hopq
    · rfl
    · rw [ih, merged]
      refine fun hopen => ho fun e he hne => ?_
      rcases List.suffix_cons_iff.1 he with rfl | he
      · exact Bool.eq_false_iff.2 hopq
      · exact hopen e he hne

/-- **Above a copy** of what is shown a layer may lose what it has, but neither in a directory that it closes nor where
it hides the name. -/
theorem view_over_copy_iff (hl : Closed l.node) (hV : Closed V) (hT : ∀ p, T.node p = V p)
    (hsub : ∀ p, l.node p ≠ none → V p = l.node p) :
    (∀ p, view [l, T] p = V p) ↔
      ∀ n d, l.node d = some .dir → l.node (n :: d) = none → V (n :: d) ≠ none →
        l.hides d n = false ∧ l.Open d := by
  have hdir : ∀ {d}, l.node d = some .dir → V d = some .dir := fun {d} hd =>
    (hsub d (by rw [hd]; exact Option.some_ne_none _)).trans hd
  constructor
  · intro h n d hd hnone hshown
    have hview := h (n :: d)
    rw [view_top hl [T] hd, hnone] at hview
    dsimp only at hview
    by_cases hh : l.hides d n = true
    · rw [if_pos hh] at hview
      exact absurd hview.symm hshown
    rw [if_neg hh] at hview
    refine ⟨Bool.eq_false_iff.2 hh, ?_⟩
    by_contra ho
    rw [under_closed T ho, first] at hview
    exact hshown hview.symm
  · intro h
    -- below what is lost the copy is alone
    have halone : ∀ d, V d = some .dir → l.node d ≠ some .dir → stack [l, T] d = [T] := by
      intro d
      induction d with
      | nil => exact fun _ hne => absurd hl.root hne
      | cons m e ih =>
        intro hd hne
        have hsome : V (m :: e) ≠ none := by rw [hd]; exact Option.some_ne_none _
        have hparent := hV.parent m e hsome
        by_cases he : l.node e = some .dir
        · have hnone : l.node (m :: e) = none := by
            by_contra hnode
            exact hne (hsub _ hnode ▸ hd)
          obtain ⟨hh, ho⟩ := h m e he hnone hsome
          rw [stack, stack_top hl [T] he, under_open hV hT hparent ho, merged_cons, hnone]
          dsimp only
          rw [hh, if_neg Bool.false_ne_true, merged_copy hT hd]
        · rw [stack, ih hparent he, merged_copy hT hd]
    intro p
    induction p with
    | nil => exact hV.root.symm
    | cons n d ih =>
      by_cases hd : V d = some .dir
      · by_cases hld : l.node d = some .dir
        · rw [view_top hl [T] hld]
          cases hnode : l.node (n :: d) with
          | some x =>
            rw [hsub (n :: d) (by rw [hnode]; exact Option.some_ne_none x), hnode]
          | none =>
            dsimp only
            by_cases hshown : V (n :: d) = none
            · rw [hshown]
              split_ifs
              · rfl
              · by_cases ho : l.Open d
                · rw [under_open hV hT hd ho, first_one, hT, hshown]
                · rw [under_closed T ho, first]
            · obtain ⟨hh, ho⟩ := h n d hld hnode hshown
              rw [hh, if_neg Bool.false_ne_true, under_open hV hT hd ho, first_one, hT]
        · rw [view, halone d hd hld, first_one, hT]
      · have hnone : V (n :: d) = none := by
          by_contra hne
          exact hd (hV.parent n d hne)
        rw [hnone]
        by_contra hne
        exact hd (ih ▸ (view_closed _).parent n d hne)

end Copy

end AufsUtil.Union
