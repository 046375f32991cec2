/-
Search trees driven by a three-way comparator, in the form of tsearch(3) and tfind(3).

The comparator is called along one path, key first, and the walk stops at the first equal comparison. It may change a
state of its own on every call (`σ`): a C comparator can assign a global variable. `tsearch` inserts the key at the end
of the path when it was not found; the node is allocated there, so the call can fail for lack of memory. A balanced
implementation then rearranges the tree, which is a parameter (`reb`): any function that keeps the in-order sequence.
`Frame` and `plug` are a walk stopped between two comparisons.

Nothing here depends on how the comparator is made, only on what it answers on the nodes of the tree: `Answers ord key
cmp q x t` says that on every node k of t the comparator answers `ord q (key k)`.

Results, for a tree whose in-order sequence is increasing under `ord ∘ key` (`Ordered`):
- `tfind_isSome_iff`: the search finds a node exactly when some node has the key;
- `insert_found_iff`: so does the insertion;
- `mem_insert`: the insertion adds exactly the new element, and nothing when the key is there;
- `insert_ordered`: it keeps the order;
- `insert_state`: if every comparison leaves the state "the last answer was not `eq`", the state after the insertion
  tells whether the key was new;
- `tsearch_spec`, `tsearch_state`: the same for `tsearch`, with any rearrangement of the tree.
-/
import Mathlib.Tactic

namespace AufsUtil.SearchTree

/-! ## Trees and the walk -/

inductive STree (α : Type) where
  | leaf
  | node (l : STree α) (k : α) (r : STree α)
deriving DecidableEq, Repr

variable {α β σ : Type}

/-- the in-order sequence -/
def STree.toList : STree α → List α
  | .leaf => []
  | .node l k r => l.toList ++ k :: r.toList

@[simp] theorem STree.mem_node {l r : STree α} {k x : α} :
    x ∈ (STree.node l k r).toList ↔ x ∈ l.toList ∨ x = k ∨ x ∈ r.toList := by
  simp [STree.toList]

def tfind (cmp : α → α → σ → Ordering × σ) (x : α) : STree α → σ → Option α × σ
  | .leaf, s => (none, s)
  | .node l k r, s =>
    match cmp x k s with
    | (.eq, s') => (some k, s')
    | (.lt, s') => tfind cmp x l s'
    | (.gt, s') => tfind cmp x r s'

/-- the walk of tsearch: was the key found, the tree with the key, the comparator's state -/
def insert (cmp : α → α → σ → Ordering × σ) (x : α) : STree α → σ → Bool × STree α × σ
  | .leaf, s => (false, .node .leaf x .leaf, s)
  | .node l k r, s =>
    match cmp x k s with
    | (.eq, s') => (true, .node l k r, s')
    | (.lt, s') => let (f, l', s'') := insert cmp x l s'; (f, .node l' k r, s'')
    | (.gt, s') => let (f, r', s'') := insert cmp x r s'; (f, .node l k r', s'')

/-- tsearch: `false` is the NULL returned when a new node is needed and cannot be allocated (`oom`) -/
def tsearch (cmp : α → α → σ → Ordering × σ) (reb : STree α → STree α) (oom : Bool) (x : α) (t : STree α) (s : σ) :
    Bool × STree α × σ :=
  match insert cmp x t s with
  | (f, t', s') => if !f && oom then (false, t, s') else (true, reb t', s')

/-! ## A walk under way -/

/-- a node passed on the way down: the walk went to its left, or to its right -/
inductive Frame (α : Type) where
  | left (k : α) (r : STree α)
  | right (l : STree α) (k : α)
deriving DecidableEq, Repr

/-- the whole tree again, with t where the walk stands; the last node passed comes first -/
def plug : STree α → List (Frame α) → STree α
  | t, [] => t
  | t, .left k r :: path => plug (.node t k r) path
  | t, .right l k :: path => plug (.node l k t) path

/-! ## What the walk finds -/

/-- on every node of t the comparator answers `ord q (key k)`, whatever its state -/
def Answers (ord : β → β → Ordering) (key : α → β) (cmp : α → α → σ → Ordering × σ) (q : β) (x : α) (t : STree α) :
    Prop :=
  ∀ k ∈ t.toList, ∀ s, (cmp x k s).1 = ord q (key k)

theorem Answers.left {ord : β → β → Ordering} {key : α → β} {cmp : α → α → σ → Ordering × σ} {q : β} {x k : α}
    {l r : STree α} (h : Answers ord key cmp q x (.node l k r)) : Answers ord key cmp q x l :=
  fun y hy => h y (STree.mem_node.2 (Or.inl hy))

theorem Answers.right {ord : β → β → Ordering} {key : α → β} {cmp : α → α → σ → Ordering × σ} {q : β} {x k : α}
    {l r : STree α} (h : Answers ord key cmp q x (.node l k r)) : Answers ord key cmp q x r :=
  fun y hy => h y (STree.mem_node.2 (Or.inr (Or.inr hy)))

/-- the in-order sequence is strictly increasing -/
def Ordered (ord : β → β → Ordering) (key : α → β) (t : STree α) : Prop :=
  t.toList.Pairwise fun a b => ord (key a) (key b) = .lt

section Order

variable (ord : β → β → Ordering) (key : α → β)

theorem ordered_node {l r : STree α} {k : α} :
    Ordered ord key (.node l k r) ↔ Ordered ord key l ∧ Ordered ord key r ∧
      (∀ a ∈ l.toList, ord (key a) (key k) = .lt) ∧ (∀ b ∈ r.toList, ord (key k) (key b) = .lt) ∧
      ∀ a ∈ l.toList, ∀ b ∈ r.toList, ord (key a) (key b) = .lt := by
  unfold Ordered
  simp only [STree.toList, List.pairwise_append, List.pairwise_cons, List.mem_cons]
  constructor
  · rintro ⟨hl, ⟨hkr, hr⟩, hlr⟩
    exact ⟨hl, hr, fun a ha => hlr a ha k (Or.inl rfl), hkr, fun a ha b hb => hlr a ha b (Or.inr hb)⟩
  · rintro ⟨hl, hr, hlk, hkr, hlr⟩
    refine ⟨hl, ⟨hkr, hr⟩, ?_⟩
    intro a ha b hb
    rcases hb with rfl | hb
    · exact hlk a ha
    · exact hlr a ha b hb

/-- left of the root nothing has a key that is not below the root's -/
theorem key_ne_left {l r : STree α} {k : α} {q : β} (h : Ordered ord key (.node l k r)) (hq : ord q (key k) = .gt) :
    ∀ a ∈ l.toList, key a ≠ q := by
  rintro a ha rfl
  have := ((ordered_node ord key).1 h).2.2.1 a ha
  rw [hq] at this
  cases this

theorem key_ne_right [Std.OrientedCmp ord] {l r : STree α} {k : α} {q : β} (h : Ordered ord key (.node l k r))
    (hq : ord q (key k) = .lt) : ∀ b ∈ r.toList, key b ≠ q := by
  rintro b hb rfl
  have hkb := ((ordered_node ord key).1 h).2.2.2.1 b hb
  have hsw : ord (key k) (key b) = (ord (key b) (key k)).swap := Std.OrientedCmp.eq_swap
  rw [hkb, hq] at hsw
  cases hsw

theorem key_ne_root [Std.ReflCmp ord] {k : α} {q : β} (hq : ord q (key k) ≠ .eq) : key k ≠ q := by
  rintro rfl
  exact hq Std.ReflCmp.compare_self

theorem tfind_isSome_iff [Std.TransCmp ord] [Std.LawfulEqCmp ord] (cmp : α → α → σ → Ordering × σ) (q : β) (x : α)
    (t : STree α) (s : σ) (hc : Answers ord key cmp q x t) (ho : Ordered ord key t) :
    (tfind cmp x t s).1.isSome ↔ ∃ k ∈ t.toList, key k = q := by
  induction t generalizing s with
  | leaf => simp [tfind, STree.toList]
  | node l k r ihl ihr =>
    obtain ⟨hol, hor, -⟩ := (ordered_node ord key).1 ho
    have hk := hc k (by simp) s
    simp only [tfind]
    split
    · rename_i s' he
      rw [he] at hk
      simp only [Option.isSome_some, true_iff]
      exact ⟨k, by simp, (Std.LawfulEqCmp.eq_of_compare hk.symm).symm⟩
    · rename_i s' he
      rw [he] at hk
      rw [ihl s' hc.left hol]
      constructor
      · rintro ⟨y, hy, rfl⟩
        exact ⟨y, by simp [hy], rfl⟩
      · rintro ⟨y, hy, rfl⟩
        rcases STree.mem_node.1 hy with hy | rfl | hy
        · exact ⟨y, hy, rfl⟩
        · exact absurd rfl (key_ne_root ord key (by rw [← hk]; simp))
        · exact absurd rfl (key_ne_right ord key ho hk.symm y hy)
    · rename_i s' he
      rw [he] at hk
      rw [ihr s' hc.right hor]
      constructor
      · rintro ⟨y, hy, rfl⟩
        exact ⟨y, by simp [hy], rfl⟩
      · rintro ⟨y, hy, rfl⟩
        rcases STree.mem_node.1 hy with hy | rfl | hy
        · exact absurd rfl (key_ne_left ord key ho hk.symm y hy)
        · exact absurd rfl (key_ne_root ord key (by rw [← hk]; simp))
        · exact ⟨y, hy, rfl⟩

/-- a comparator that leaves its state alone -/
theorem tfind_state (cmp : α → α → σ → Ordering × σ) (x : α) (t : STree α) (s : σ)
    (hc : ∀ k s, (cmp x k s).2 = s) : (tfind cmp x t s).2 = s := by
  induction t generalizing s with
  | leaf => rfl
  | node l k r ihl ihr =>
    have hk := hc k s
    simp only [tfind]
    split <;> rename_i s' he <;> rw [he] at hk
    · exact hk
    · exact (ihl s').trans hk
    · exact (ihr s').trans hk

/-! ## Insertion -/

/-- insertion walks the path of the search -/
theorem insert_found_eq (cmp : α → α → σ → Ordering × σ) (x : α) (t : STree α) (s : σ) :
    (insert cmp x t s).1 = (tfind cmp x t s).1.isSome := by
  induction t generalizing s with
  | leaf => rfl
  | node l k r ihl ihr =>
    simp only [insert, tfind]
    split
    · rfl
    · exact ihl _
    · exact ihr _

theorem insert_found_iff [Std.TransCmp ord] [Std.LawfulEqCmp ord] (cmp : α → α → σ → Ordering × σ) (q : β) (x : α)
    (t : STree α) (s : σ) (hc : Answers ord key cmp q x t) (ho : Ordered ord key t) :
    (insert cmp x t s).1 = true ↔ ∃ k ∈ t.toList, key k = q := by
  rw [insert_found_eq, tfind_isSome_iff ord key cmp q x t s hc ho]

/-- the new element is added when the key was not found, and nothing else changes -/
theorem mem_insert (cmp : α → α → σ → Ordering × σ) (x y : α) (t : STree α) (s : σ) :
    y ∈ (insert cmp x t s).2.1.toList ↔ y ∈ t.toList ∨ (y = x ∧ (insert cmp x t s).1 = false) := by
  induction t generalizing s with
  | leaf => simp [insert, STree.toList]
  | node l k r ihl ihr =>
    simp only [insert]
    split
    · simp
    · rename_i s' _
      simp only [STree.mem_node, ihl s']
      tauto
    · rename_i s' _
      simp only [STree.mem_node, ihr s']
      tauto

theorem insert_ordered [Std.TransCmp ord] (cmp : α → α → σ → Ordering × σ) (x : α) (t : STree α) (s : σ)
    (hc : Answers ord key cmp (key x) x t) (ho : Ordered ord key t) : Ordered ord key (insert cmp x t s).2.1 := by
  induction t generalizing s with
  | leaf => simp [insert, Ordered, STree.toList]
  | node l k r ihl ihr =>
    obtain ⟨hol, hor, hlk, hkr, hlr⟩ := (ordered_node ord key).1 ho
    have hk := hc k (by simp) s
    simp only [insert]
    split
    · exact ho
    · rename_i s' he
      rw [he] at hk
      refine (ordered_node ord key).2 ⟨ihl s' hc.left hol, hor, ?_, hkr, ?_⟩
      · intro a ha
        rcases (mem_insert cmp x a l s').1 ha with ha | ⟨rfl, -⟩
        · exact hlk a ha
        · exact hk.symm
      · intro a ha b hb
        rcases (mem_insert cmp x a l s').1 ha with ha | ⟨rfl, -⟩
        · exact hlr a ha b hb
        · exact Std.TransCmp.lt_trans hk.symm (hkr b hb)
    · rename_i s' he
      rw [he] at hk
      have hkx : ord (key k) (key x) = .lt := by
        have hsw : ord (key k) (key x) = (ord (key x) (key k)).swap := Std.OrientedCmp.eq_swap
        rw [hsw, ← hk]
        rfl
      refine (ordered_node ord key).2 ⟨hol, ihr s' hc.right hor, hlk, ?_, ?_⟩
      · intro b hb
        rcases (mem_insert cmp x b r s').1 hb with hb | ⟨rfl, -⟩
        · exact hkr b hb
        · exact hkx
      · intro a ha b hb
        rcases (mem_insert cmp x b r s').1 hb with hb | ⟨rfl, -⟩
        · exact hlr a ha b hb
        · exact Std.TransCmp.lt_trans (hlk a ha) hkx

end Order

/-- **The flag set by the last comparison.** If every call of the comparator leaves in its state whether its answer
was different from `eq`, and the state says "new" before the walk, it says after the walk whether the key was new. -/
theorem insert_state (cmp : α → α → Bool → Ordering × Bool) (x : α) (t : STree α)
    (hc : ∀ k s, (cmp x k s).2 = ((cmp x k s).1 != .eq)) :
    (insert cmp x t true).2.2 = !(insert cmp x t true).1 := by
  induction t with
  | leaf => rfl
  | node l k r ihl ihr =>
    have hk := hc k true
    simp only [insert]
    split
    · rename_i s' he
      rw [he] at hk
      simpa using hk
    · rename_i s' he
      rw [he] at hk
      simp only at hk
      subst hk
      exact ihl
    · rename_i s' he
      rw [he] at hk
      simp only at hk
      subst hk
      exact ihr

/-! ## tsearch -/

theorem tsearch_oom (cmp : α → α → σ → Ordering × σ) (reb : STree α → STree α) (x : α) (t : STree α) (s : σ) :
    (tsearch cmp reb false x t s).1 = true := by
  simp [tsearch]

/-- what a successful tsearch leaves, under any rearrangement that keeps the in-order sequence -/
theorem tsearch_spec (ord : β → β → Ordering) [Std.TransCmp ord] [Std.LawfulEqCmp ord] (key : α → β)
    (cmp : α → α → σ → Ordering × σ) (reb : STree α → STree α) (hreb : ∀ t, (reb t).toList = t.toList) (oom : Bool)
    (x : α) (t : STree α) (s : σ) (hc : Answers ord key cmp (key x) x t) (ho : Ordered ord key t)
    (h : (tsearch cmp reb oom x t s).1 = true) :
    Ordered ord key (tsearch cmp reb oom x t s).2.1 ∧
      ∀ y, y ∈ (tsearch cmp reb oom x t s).2.1.toList ↔
        y ∈ t.toList ∨ (y = x ∧ ¬ ∃ k ∈ t.toList, key k = key x) := by
  have hf := insert_found_iff ord key cmp (key x) x t s hc ho
  have hm := fun y => mem_insert cmp x y t s
  have hi := insert_ordered ord key cmp x t s hc ho
  simp only [tsearch] at h ⊢
  split_ifs at h ⊢ with hn
  simp only [Ordered, hreb]
  refine ⟨hi, ?_⟩
  intro y
  rw [hm y, ← hf, Bool.not_eq_true]

theorem tsearch_state (ord : β → β → Ordering) [Std.TransCmp ord] [Std.LawfulEqCmp ord] (key : α → β)
    (cmp : α → α → Bool → Ordering × Bool) (reb : STree α → STree α) (oom : Bool) (x : α) (t : STree α)
    (hs : ∀ k s, (cmp x k s).2 = ((cmp x k s).1 != .eq)) (hc : Answers ord key cmp (key x) x t)
    (ho : Ordered ord key t) :
    (tsearch cmp reb oom x t true).2.2 = true ↔ ¬ ∃ k ∈ t.toList, key k = key x := by
  have hst : (tsearch cmp reb oom x t true).2.2 = (insert cmp x t true).2.2 := by
    simp only [tsearch]
    split_ifs <;> rfl
  rw [hst, insert_state cmp x t hs, ← insert_found_iff ord key cmp (key x) x t true hc ho]
  simp

end AufsUtil.SearchTree
