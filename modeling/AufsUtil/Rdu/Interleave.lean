/-
Two threads that merge two directories at the same time (`libau/rdu_lib.c`, rdu_merge).

Each thread holds the lock of its own struct rdu, and no other; `do_store` is one variable of the file, shared by both.
A thread is its own rdu and where it stands in the loop (`Phase`). Its steps are those that touch do_store, one by one:
`do_store = 1` at the head of the loop, every call of rdu_ent_compar or rdu_ent_compar_wh2 (they assign it), the test
after tsearch(3); and the end of a tsearch that found nothing, where the node is allocated. rdu_ent_compar_wh1 does not
touch do_store, so tfind(3) belongs to the step before it.

- `Shared.step`: one step of one of the two threads; a run is any list of them.
- `merges_end`: no run is infinite; a thread that is not behind its loop can always step.
- `interleaved_merges_iff`: both threads end with the error and the pos[] of a merge on its own exactly if at every test
  the variable holds what the testing thread itself assigned last (`Undisturbed`).
- `entry_dropped`: it does not always: the duplicate found by one thread makes the other drop a new name.

What the model keeps of C: the trees of tsearch as the walk sees them, so that every comparison is a step; what the C
library decides (`MergeEnv`) is an input of each thread. pos[] is looked at as the loop leaves it; a merge that failed
frees it after that.
-/
import Mathlib.Tactic
import AufsUtil.Lib.Runs
import AufsUtil.Rdu.Merge
import AufsUtil.Rdu.UnionView

namespace AufsUtil.Rdu

open AufsUtil.CStr AufsUtil.SearchTree AufsUtil.Runs

/-! ## A thread -/

/-- the two trees of struct rdu -/
inductive Kind where
  | real
  | wh
deriving DecidableEq, Repr

/-- the comparator that tsearch is given for the tree -/
def Kind.compar : Kind → Cell → Cell → Bool → Ordering × Bool
  | .real => rdu_ent_compar
  | .wh => rdu_ent_compar_wh2

def Kind.tree : Kind → Merge → STree Cell
  | .real, p => p.real
  | .wh, p => p.wh

def Kind.set : Kind → Merge → STree Cell → Merge
  | .real, p, t => { p with real := t }
  | .wh, p, t => { p with wh := t }

/-- is do_store tested after a tsearch in this tree? `p->shwh && do_store` for whiteouts -/
def Kind.tests : Kind → Merge → Bool
  | .real, _ => true
  | .wh, p => p.shwh

/-- where a thread stands: at the head of the loop, in tsearch with the subtree it looks at and the nodes passed, after
tsearch, or behind the loop -/
inductive Phase where
  | head
  | walk (k : Kind) (c : Cell) (t : STree Cell) (path : List (Frame Cell))
  | test (k : Kind) (c : Cell)
  | done (err : ℤ)
deriving DecidableEq, Repr

/-- a thread in rdu_merge: `ul` and `u` of its loop, the entries from u on, its struct rdu. `p.do_store` is here what
this thread assigned last, whatever the shared variable holds by now -/
structure Thread where
  E : MergeEnv
  ul : ℕ
  u : ℕ
  es : List RduEnt
  p : Merge
  phase : Phase

/-- the thread as it enters rdu_merge -/
def Thread.enter (E : MergeEnv) (shwh : Bool) (ent : ℕ) (ents : List RduEnt) : Thread :=
  ⟨E, 0, ent, ents, ⟨shwh, [], .leaf, .leaf, true⟩, if E.pos_oom then .done (-1) else .head⟩

/-- `ul++` and `u.ul += au_rdu_len(u.e->nlen)`, back to the head of the loop -/
def Thread.next (T : Thread) (p : Merge) : Thread :=
  match T.es with
  | [] => { T with p := p, phase := .head }
  | e :: es => { T with ul := T.ul + 1, u := T.u + au_rdu_len e.nlen, es := es, p := p, phase := .head }

/-- tsearch returns a node, in the tree t -/
def Thread.found (T : Thread) (k : Kind) (c : Cell) (t : STree Cell) (do_store : Bool) : Thread :=
  { T with p := k.set { T.p with do_store := do_store } (T.E.reb T.ul t), phase := .test k c }

/-- one step of a thread that finds do_store in the shared variable, and what it leaves there -/
def Thread.step (T : Thread) (do_store : Bool) : Option (Thread × Bool) :=
  match T.phase with
  | .done _ => none
  | .head =>
    match T.es with
    | [] => some ({ T with phase := .done 0 }, do_store)
    | e :: _ =>
      let c : Cell := ⟨T.u, { e with wh := false }⟩
      let p := { T.p with do_store := true }
      if plain e then
        match (tfind rdu_ent_compar_wh1 c p.wh true).1 with
        | some _ => some (T.next p, true)
        | none => some ({ T with p := p, phase := .walk .real c p.real [] }, true)
      else some ({ T with p := p, phase := .walk .wh { c with ent := { c.ent with wh := true } } p.wh [] }, true)
  | .walk k c .leaf path =>
    if T.E.tsearch_oom T.ul then some ({ T with phase := .done (-1) }, do_store)
    else some (T.found k c (plug (.node .leaf c .leaf) path) T.p.do_store, do_store)
  | .walk k c (.node l x r) path =>
    match k.compar c x do_store with
    | (.eq, v) => some (T.found k c (plug (.node l x r) path) v, v)
    | (.lt, v) => some ({ T with p := { T.p with do_store := v }, phase := .walk k c l (.left x r :: path) }, v)
    | (.gt, v) => some ({ T with p := { T.p with do_store := v }, phase := .walk k c r (.right l x :: path) }, v)
  | .test k c => some (T.next (if k.tests T.p && do_store then rdu_store T.p c else T.p), do_store)

/-! ## The two threads -/

inductive Who where
  | a
  | b
deriving DecidableEq, Repr

structure Shared where
  do_store : Bool
  threads : Who → Thread

def Shared.step (s : Shared) (w : Who) : Option Shared :=
  ((s.threads w).step s.do_store).map fun r => ⟨r.2, Function.update s.threads w r.1⟩

/-! ## The rest of a thread's loop, undisturbed -/

/-- the loop behind the test: the entry is recorded or not, and the loop goes on -/
def Thread.after (T : Thread) (k : Kind) (c : Cell) (p : Merge) : ℤ × Merge :=
  let T' := T.next (if k.tests p && p.do_store then rdu_store p c else p)
  merge_loop T'.E T'.ul T'.u T'.es T'.p

/-- the error and the rdu at the end of the loop if from now on only this thread assigns do_store -/
def Thread.rest (T : Thread) : ℤ × Merge :=
  match T.phase with
  | .done err => (err, T.p)
  | .head => merge_loop T.E T.ul T.u T.es T.p
  | .walk k c t path =>
    match insert k.compar c t T.p.do_store with
    | (f, t', v) =>
      if !f && T.E.tsearch_oom T.ul then (-1, { T.p with do_store := v })
      else T.after k c (k.set { T.p with do_store := v } (T.E.reb T.ul (plug t' path)))
  | .test k c => T.after k c T.p

theorem compar_state (k : Kind) (c x : Cell) (s s' : Bool) : k.compar c x s = k.compar c x s' := by
  cases k <;> rfl

/-- the search among the whiteouts does not depend on do_store, and leaves it alone -/
theorem tfind_wh1 (c : Cell) (t : STree Cell) (s s' : Bool) :
    tfind rdu_ent_compar_wh1 c t s = ((tfind rdu_ent_compar_wh1 c t s').1, s) := by
  refine Prod.ext ?_ (tfind_state rdu_ent_compar_wh1 c t s fun _ _ => rfl)
  induction t with
  | leaf => rfl
  | node l x r ihl ihr =>
    simp only [tfind, rdu_ent_compar_wh1] at ihl ihr ⊢
    split <;> rename_i heq <;> simp only [Prod.mk.injEq] at heq <;> obtain ⟨hans, rfl⟩ := heq <;> simp only [hans]
    · exact ihl
    · exact ihr

theorem rest_next (T : Thread) (p : Merge) :
    (T.next p).rest = merge_loop (T.next p).E (T.next p).ul (T.next p).u (T.next p).es (T.next p).p := by
  unfold Thread.next
  split <;> rfl

/-- what tsearch in one of the trees makes of the entry c, and the loop behind it -/
theorem rest_search (T : Thread) (k : Kind) (c : Cell) (e : RduEnt) (es : List RduEnt) (hes : T.es = e :: es)
    (hph : T.phase = .walk k c (k.tree T.p) []) :
    T.rest =
      match tsearch k.compar (T.E.reb T.ul) (T.E.tsearch_oom T.ul) c (k.tree T.p) T.p.do_store with
      | (true, t, v) =>
        let p := k.set { T.p with do_store := v } t
        merge_loop T.E (T.ul + 1) (T.u + au_rdu_len e.nlen) es (if k.tests p && p.do_store then rdu_store p c else p)
      | (false, _, v) => (-1, { T.p with do_store := v }) := by
  unfold Thread.rest tsearch
  rw [hph]
  rcases hI : insert k.compar c (k.tree T.p) T.p.do_store with ⟨f, t', v⟩
  simp only [hI]
  by_cases hoom : (!f && T.E.tsearch_oom T.ul) = true
  · rw [if_pos hoom, if_pos hoom]
  · rw [if_neg hoom, if_neg hoom]
    simp only [Thread.after, Thread.next, hes]
    rfl

/-- a failed tsearch leaves its tree alone -/
theorem tsearch_failed {k : Kind} {reb : STree Cell → STree Cell} {oom : Bool} {c : Cell} {t t' : STree Cell}
    {s v : Bool} (h : tsearch k.compar reb oom c t s = (false, t', v)) : t' = t := by
  unfold tsearch at h
  split at h
  split_ifs at h
  · simp only [Prod.mk.injEq] at h
    exact h.2.1.symm
  · simp only [Prod.mk.injEq, Bool.true_eq_false, false_and] at h

/-- a step at the head of the loop leaves the thread where the merge of the entry goes on -/
theorem rest_head (T T' : Thread) (s v : Bool) (hph : T.phase = .head) (h : T.step s = some (T', v)) :
    T'.rest = T.rest := by
  have hrest : T.rest = merge_loop T.E T.ul T.u T.es T.p := by
    unfold Thread.rest
    rw [hph]
  unfold Thread.step at h
  rw [hph] at h
  rw [hrest]
  cases hes : T.es with
  | nil =>
    simp only [hes, Option.some.injEq, Prod.mk.injEq] at h
    obtain ⟨rfl, -⟩ := h
    rfl
  | cons e es =>
    simp only [hes] at h
    by_cases hpl : plain e = true
    · rw [if_pos hpl] at h
      have hf := tfind_wh1 ⟨T.u, { e with wh := false }⟩ T.p.wh true true
      simp only [merge_loop, merge_one, hpl, if_true, rdu_ent_append]
      rw [hf]
      split at h <;> rename_i ho <;> simp only [Option.some.injEq, Prod.mk.injEq] at h <;> obtain ⟨rfl, -⟩ := h
      · rw [rest_next]
        simp only [ho, if_true, Thread.next, hes]
      · rw [rest_search _ .real _ e es rfl rfl]
        simp only [ho, Kind.compar, Kind.tree, Kind.set, Kind.tests, Bool.true_and]
        rcases hs : tsearch rdu_ent_compar (T.E.reb T.ul) (T.E.tsearch_oom T.ul) ⟨T.u, { e with wh := false }⟩
          T.p.real true with ⟨_ | _, t, v⟩
        · obtain rfl := tsearch_failed (k := .real) hs
          rfl
        · simp only [if_true]
    · rw [if_neg hpl] at h
      simp only [Option.some.injEq, Prod.mk.injEq] at h
      obtain ⟨rfl, -⟩ := h
      simp only [merge_loop, merge_one, hpl, rdu_ent_append_wh, Bool.false_eq_true, if_false]
      rw [rest_search _ .wh _ e es rfl rfl]
      simp only [Kind.compar, Kind.tree, Kind.set, Kind.tests]
      rcases hs : tsearch rdu_ent_compar_wh2 (T.E.reb T.ul) (T.E.tsearch_oom T.ul) ⟨T.u, { e with wh := true }⟩
        T.p.wh true with ⟨_ | _, t, v⟩
      · obtain rfl := tsearch_failed (k := .wh) hs
        rfl
      · simp only [if_true]
        rfl

theorem rest_found (T : Thread) (k : Kind) (c : Cell) (t : STree Cell) (v : Bool) :
    (T.found k c t v).rest = T.after k c (k.set { T.p with do_store := v } (T.E.reb T.ul t)) := by
  unfold Thread.rest
  rfl

theorem rest_of_walk (T : Thread) (k : Kind) (c : Cell) (t : STree Cell) (path : List (Frame Cell))
    (hph : T.phase = .walk k c t path) :
    T.rest =
      let r := SearchTree.insert k.compar c t T.p.do_store
      if !r.1 && T.E.tsearch_oom T.ul then (-1, { T.p with do_store := r.2.2 })
      else T.after k c (k.set { T.p with do_store := r.2.2 } (T.E.reb T.ul (plug r.2.1 path))) := by
  unfold Thread.rest
  rw [hph]

/-- so does a step of tsearch -/
theorem rest_walk (T T' : Thread) (s v : Bool) (k : Kind) (c : Cell) (t : STree Cell) (path : List (Frame Cell))
    (hph : T.phase = .walk k c t path) (h : T.step s = some (T', v)) : T'.rest = T.rest := by
  unfold Thread.step at h
  rw [hph] at h
  rw [rest_of_walk T k c t path hph]
  cases t with
  | leaf =>
    simp only [SearchTree.insert, Bool.not_false, Bool.true_and] at h ⊢
    by_cases hoom : T.E.tsearch_oom T.ul = true
    · rw [if_pos hoom, Option.some.injEq, Prod.mk.injEq] at h
      rw [if_pos hoom, ← h.1]
      rfl
    · rw [if_neg hoom, Option.some.injEq, Prod.mk.injEq] at h
      rw [if_neg hoom, ← h.1, rest_found]
  | node l x r =>
    obtain ⟨ans, b, hc⟩ : ∃ ans b, k.compar c x T.p.do_store = (ans, b) := ⟨_, _, rfl⟩
    simp only [compar_state k c x s T.p.do_store, SearchTree.insert, hc] at h ⊢
    cases ans with
    | eq =>
      rw [Option.some.injEq, Prod.mk.injEq] at h
      rw [← h.1, rest_found]
      rfl
    | lt =>
      rw [Option.some.injEq, Prod.mk.injEq] at h
      rw [← h.1]
      exact rest_of_walk _ k c l (.left x r :: path) rfl
    | gt =>
      rw [Option.some.injEq, Prod.mk.injEq] at h
      rw [← h.1]
      exact rest_of_walk _ k c r (.right l x :: path) rfl

/-! ## What was recorded before stays -/

theorem merge_one_frame (E : MergeEnv) (ul u : ℕ) (e : RduEnt) (p : Merge) (q : List Cell) :
    let r := merge_one E ul u e { p with pos := [] }
    merge_one E ul u e { p with pos := q } = (r.1, { r.2 with pos := q ++ r.2.pos }) := by
  unfold merge_one rdu_ent_append rdu_ent_append_wh
  by_cases hpl : plain e = true
  · simp only [hpl, if_true]
    split
    · simp
    · split
      · split_ifs <;> simp [rdu_store]
      · simp
  · simp only [hpl, Bool.false_eq_true, if_false]
    split
    · split_ifs <;> simp [rdu_store]
    · simp

/-- the rest of the loop appends to pos[], and what it appends does not depend on what is there -/
theorem merge_loop_frame (E : MergeEnv) (es : List RduEnt) : ∀ (ul u : ℕ) (p : Merge) (q : List Cell),
    let r := merge_loop E ul u es { p with pos := [] }
    merge_loop E ul u es { p with pos := q } = (r.1, { r.2 with pos := q ++ r.2.pos }) := by
  induction es with
  | nil =>
    intro ul u p q
    simp [merge_loop]
  | cons e es ih =>
    intro ul u p q
    simp only [merge_loop]
    rw [merge_one_frame E ul u e p q]
    generalize merge_one E ul u e { p with pos := [] } = r
    obtain ⟨err, p1⟩ := r
    by_cases h0 : err = 0
    · simp only [h0, if_true]
      rw [ih (ul + 1) _ p1 (q ++ p1.pos)]
      have hp1 := ih (ul + 1) (u + au_rdu_len e.nlen) p1 p1.pos
      simp only at hp1
      rw [hp1]
      simp only [List.append_assoc]
    · simp only [h0, if_false]

theorem loop_frame (E : MergeEnv) (ul u : ℕ) (es : List RduEnt) (p : Merge) :
    ∃ err suf, ∀ q, ((merge_loop E ul u es { p with pos := q }).1, (merge_loop E ul u es { p with pos := q }).2.pos) =
      (err, q ++ suf) := by
  let r := merge_loop E ul u es { p with pos := [] }
  refine ⟨r.1, r.2.pos, ?_⟩
  intro q
  rw [merge_loop_frame E es ul u p q]

/-- error and pos[] at the end of the loop -/
def Thread.outcome (T : Thread) : ℤ × List Cell := (T.rest.1, T.rest.2.pos)

def Thread.with_pos (T : Thread) (q : List Cell) : Thread := { T with p := { T.p with pos := q } }

theorem next_outcome (T : Thread) (p : Merge) :
    ∃ err suf, ∀ q, (T.next { p with pos := q }).outcome = (err, q ++ suf) := by
  unfold Thread.outcome Thread.next
  cases T.es with
  | nil => exact ⟨0, [], fun q => by simp [Thread.rest, merge_loop]⟩
  | cons e es =>
    exact loop_frame T.E (T.ul + 1) (T.u + au_rdu_len e.nlen) es p

theorem store_if (p : Merge) (c : Cell) (b : Bool) :
    (if b then rdu_store p c else p) = { p with pos := p.pos ++ if b then [c] else [] } := by
  cases b with
  | true => rfl
  | false => simp

theorem after_eq (T : Thread) (k : Kind) (c : Cell) (p : Merge) :
    T.after k c p = (T.next { p with pos := p.pos ++ if k.tests p && p.do_store then [c] else [] }).rest := by
  rw [rest_next, ← store_if]
  rfl

theorem after_frame (T : Thread) (k : Kind) (c : Cell) (p : Merge) :
    ∃ err suf, ∀ q, ((T.after k c { p with pos := q }).1, (T.after k c { p with pos := q }).2.pos) =
      (err, q ++ suf) := by
  obtain ⟨err, suf, h⟩ := next_outcome T p
  refine ⟨err, (if k.tests p && p.do_store then [c] else []) ++ suf, ?_⟩
  intro q
  rw [← List.append_assoc, ← h, after_eq]
  cases k <;> rfl

/-- what a thread still appends to pos[] does not depend on what is there -/
theorem outcome_frame (T : Thread) : ∃ err suf, ∀ q, (T.with_pos q).outcome = (err, q ++ suf) := by
  obtain ⟨E, ul, u, es, p, phase⟩ := T
  cases phase with
  | done err => exact ⟨err, [], fun q => by rw [List.append_nil]; rfl⟩
  | head => exact loop_frame E ul u es p
  | test k c => exact after_frame ⟨E, ul, u, es, p, .test k c⟩ k c p
  | walk k c t path =>
    have hw := fun q => rest_of_walk ⟨E, ul, u, es, { p with pos := q }, .walk k c t path⟩ k c t path rfl
    obtain ⟨f, t', v, hI⟩ : ∃ f t' v, SearchTree.insert k.compar c t p.do_store = (f, t', v) := ⟨_, _, _, rfl⟩
    simp only [hI] at hw
    by_cases hoom : (!f && E.tsearch_oom ul) = true
    · refine ⟨-1, [], ?_⟩
      intro q
      simp only [Thread.outcome, Thread.with_pos, hw, hoom, if_true, List.append_nil]
    · obtain ⟨err, suf, h⟩ := after_frame ⟨E, ul, u, es, p, .walk k c t path⟩ k c
        (k.set { p with do_store := v } (E.reb ul (plug t' path)))
      refine ⟨err, suf, ?_⟩
      intro q
      rw [← h q]
      simp only [Thread.outcome, Thread.with_pos, hw, hoom]
      cases k <;> rfl

/-! ## One step of a thread -/

/-- the entry being handled is the one at u -/
def Thread.Current (T : Thread) : Prop :=
  match T.phase with
  | .walk _ c _ _ | .test _ c => c.addr = T.u ∧ T.es ≠ []
  | .head | .done _ => True

/-- a step that is not a test: the merge goes on from there, and nothing is recorded -/
structure Quiet (T T' : Thread) : Prop where
  rest : T'.rest = T.rest
  pos : T'.p.pos = T.p.pos
  u : T.u ≤ T'.u
  current : T.Current → T'.Current

theorem set_pos (k : Kind) (p : Merge) (t : STree Cell) : (k.set p t).pos = p.pos := by
  cases k <;> rfl

theorem next_fields (T : Thread) (p : Merge) : (T.next p).p = p ∧ (T.next p).phase = .head ∧ T.u ≤ (T.next p).u := by
  unfold Thread.next
  cases T.es with
  | nil => exact ⟨rfl, rfl, le_rfl⟩
  | cons e es => exact ⟨rfl, rfl, Nat.le_add_right _ _⟩

theorem next_lt (T : Thread) (p : Merge) (hes : T.es ≠ []) : T.u < (T.next p).u := by
  unfold Thread.next
  cases hT : T.es with
  | nil => exact absurd hT hes
  | cons e es =>
    simp only [au_rdu_len]
    omega

theorem next_current (T : Thread) (p : Merge) : (T.next p).Current := by
  unfold Thread.Current
  rw [(next_fields T p).2.1]
  trivial

theorem quiet_head (T T' : Thread) (s v : Bool) (hph : T.phase = .head) (h : T.step s = some (T', v)) :
    Quiet T T' := by
  have hrest := rest_head T T' s v hph h
  unfold Thread.step at h
  rw [hph] at h
  cases hes : T.es with
  | nil =>
    simp only [hes, Option.some.injEq, Prod.mk.injEq] at h
    obtain ⟨rfl, -⟩ := h
    exact ⟨hrest, rfl, le_rfl, fun _ => trivial⟩
  | cons e es =>
    simp only [hes] at h
    by_cases hpl : plain e = true
    · rw [if_pos hpl] at h
      split at h <;> simp only [Option.some.injEq, Prod.mk.injEq] at h <;> obtain ⟨rfl, -⟩ := h
      · obtain ⟨hp, -, hu⟩ := next_fields T { T.p with do_store := true }
        exact ⟨hrest, by rw [hp], hu, fun _ => next_current T _⟩
      · exact ⟨hrest, rfl, le_rfl, fun _ => ⟨rfl, List.cons_ne_nil e es⟩⟩
    · rw [if_neg hpl] at h
      simp only [Option.some.injEq, Prod.mk.injEq] at h
      obtain ⟨rfl, -⟩ := h
      exact ⟨hrest, rfl, le_rfl, fun _ => ⟨rfl, List.cons_ne_nil e es⟩⟩

theorem quiet_walk (T T' : Thread) (s v : Bool) (k : Kind) (c : Cell) (t : STree Cell) (path : List (Frame Cell))
    (hph : T.phase = .walk k c t path) (h : T.step s = some (T', v)) : Quiet T T' := by
  have hrest := rest_walk T T' s v k c t path hph h
  have hcur : T.Current ↔ c.addr = T.u ∧ T.es ≠ [] := by
    unfold Thread.Current
    rw [hph]
  unfold Thread.step at h
  rw [hph] at h
  cases t with
  | leaf =>
    simp only at h
    split_ifs at h <;> simp only [Option.some.injEq, Prod.mk.injEq] at h <;> obtain ⟨rfl, -⟩ := h
    · exact ⟨hrest, rfl, le_rfl, fun _ => trivial⟩
    · exact ⟨hrest, set_pos k _ _, le_rfl, hcur.1⟩
  | node l x r =>
    simp only at h
    split at h <;> simp only [Option.some.injEq, Prod.mk.injEq] at h <;> obtain ⟨rfl, -⟩ := h
    · exact ⟨hrest, set_pos k _ _, le_rfl, hcur.1⟩
    · exact ⟨hrest, rfl, le_rfl, hcur.1⟩
    · exact ⟨hrest, rfl, le_rfl, hcur.1⟩

/-- q is what pos[] would hold if every test of the thread had found what the thread itself assigned; X is the outcome
of its merge on its own -/
structure Twin (X : ℤ × List Cell) (T : Thread) (q : List Cell) : Prop where
  outcome : (T.with_pos q).outcome = X
  before : ∀ c, c ∈ T.p.pos ∨ c ∈ q → c.addr < T.u
  current : T.Current

/-- the value the test finds is the one this thread assigned last, or it is no test -/
def Thread.Undisturbed (T : Thread) (do_store : Bool) : Prop :=
  ∀ k c, T.phase = .test k c → k.tests T.p = true → do_store = T.p.do_store

theorem twin_quiet {X : ℤ × List Cell} {T T' : Thread} {q : List Cell} (h : Twin X T q) (hq : Quiet T T') :
    Twin X T' q ∧ T'.outcome = T.outcome := by
  have hout : T'.outcome = T.outcome := by
    unfold Thread.outcome
    rw [hq.rest]
  obtain ⟨err, suf, hT⟩ := outcome_frame T
  obtain ⟨err', suf', hT'⟩ := outcome_frame T'
  have hpos : (err', T'.p.pos ++ suf') = (err, T.p.pos ++ suf) :=
    calc (err', T'.p.pos ++ suf') = T'.outcome := (hT' T'.p.pos).symm
      _ = T.outcome := hout
      _ = (err, T.p.pos ++ suf) := hT T.p.pos
  rw [Prod.mk.injEq, hq.pos] at hpos
  obtain ⟨rfl, hsuf⟩ := hpos
  obtain rfl := List.append_cancel_left hsuf
  refine ⟨⟨?_, ?_, hq.current h.current⟩, hout⟩
  · rw [hT' q, ← hT q]
    exact h.outcome
  · intro c hc
    rw [hq.pos] at hc
    exact (h.before c hc).trans_le hq.u

theorem append_if_inj {l r : List Cell} {c : Cell} (hl : c ∉ l) (hr : c ∉ r) (a b : Bool) :
    ((l ++ if a then [c] else []) = r ++ if b then [c] else []) ↔ l = r ∧ a = b := by
  cases a <;> cases b
  · simp
  · simp only [Bool.false_eq_true, if_false, if_true, List.append_nil, and_false, iff_false]
    rintro rfl
    exact hl (by simp)
  · simp only [Bool.false_eq_true, if_false, if_true, List.append_nil, Bool.true_eq_false, and_false, iff_false]
    rintro rfl
    exact hr (by simp)
  · simp

/-- the test: the twin decides by what the thread assigned, the thread by what it finds -/
theorem twin_test {X : ℤ × List Cell} {T T' : Thread} {q : List Cell} {s v : Bool} {k : Kind} {c : Cell}
    (h : Twin X T q) (hph : T.phase = .test k c) (hs : T.step s = some (T', v)) :
    (∃ q', Twin X T' q') ∧ (T'.outcome = X ↔ T.outcome = X ∧ (k.tests T.p = true → s = T.p.do_store)) := by
  have hcur : c.addr = T.u ∧ T.es ≠ [] := by
    have := h.current
    unfold Thread.Current at this
    rwa [hph] at this
  have hrest : ∀ q', (T.with_pos q').rest = T.after k c { T.p with pos := q' } := by
    intro q'
    unfold Thread.rest
    simp only [Thread.with_pos, hph]
    rfl
  unfold Thread.step at hs
  rw [hph, Option.some.injEq, Prod.mk.injEq] at hs
  obtain ⟨err, suf, hn⟩ := next_outcome T T.p
  let cs (b : Bool) : List Cell := if k.tests T.p && b then [c] else []
  have hout : ∀ q', (T.with_pos q').outcome = (err, (q' ++ cs T.p.do_store) ++ suf) := by
    intro q'
    rw [← hn]
    unfold Thread.outcome
    rw [hrest, after_eq]
    cases k <;> rfl
  have hT' : T' = T.next { T.p with pos := T.p.pos ++ cs s } := by rw [← hs.1, store_if]
  have hX : X = (err, (q ++ cs T.p.do_store) ++ suf) := by rw [← hout q, h.outcome]
  have hnew : ∀ l : List Cell, (∀ d ∈ l, d.addr < T.u) → c ∉ l :=
    fun l hl hc => absurd (hl c hc) (by rw [hcur.1]; exact lt_irrefl _)
  refine ⟨⟨q ++ cs T.p.do_store, ?_, ?_, ?_⟩, ?_⟩
  · rw [hX, ← hn, hT']
    unfold Thread.with_pos Thread.next
    cases T.es <;> rfl
  · intro d hd
    rw [hT', (next_fields T _).1] at hd
    have hlt : T.u < T'.u := by
      rw [hT']
      exact next_lt T _ hcur.2
    have hone : ∀ l b, (∀ x ∈ l, x.addr < T.u) → d ∈ l ++ cs b → d.addr < T'.u := by
      intro l b hl hm
      rcases List.mem_append.1 hm with hm | hm
      · exact (hl d hm).trans hlt
      · simp only [cs, List.mem_ite_nil_right, List.mem_singleton] at hm
        rw [hm.2, hcur.1]
        exact hlt
    rcases hd with hd | hd
    · exact hone _ s (fun x hx => h.before x (Or.inl hx)) hd
    · exact hone _ _ (fun x hx => h.before x (Or.inr hx)) hd
  · rw [hT']
    exact next_current T _
  · calc T'.outcome = X
        ↔ (T.p.pos ++ cs s) ++ suf = (q ++ cs T.p.do_store) ++ suf := by
          rw [hT', hn, hX, Prod.mk.injEq]
          simp only [true_and]
      _ ↔ T.p.pos = q ∧ (k.tests T.p && s) = (k.tests T.p && T.p.do_store) := by
        rw [List.append_left_inj]
        exact append_if_inj (hnew _ fun d hd => h.before d (Or.inl hd)) (hnew _ fun d hd => h.before d (Or.inr hd)) _ _
      _ ↔ T.outcome = X ∧ (k.tests T.p = true → s = T.p.do_store) := by
        refine and_congr ?_ ?_
        · change _ ↔ (T.with_pos T.p.pos).outcome = X
          rw [hout, hX, Prod.mk.injEq, List.append_left_inj, List.append_left_inj]
          simp only [true_and]
        · cases k.tests T.p <;> simp

/-- **One step.** The outcome stays that of the merge on its own exactly if the step is undisturbed. -/
theorem twin_step {X : ℤ × List Cell} {T T' : Thread} {q : List Cell} {s v : Bool} (h : Twin X T q)
    (hs : T.step s = some (T', v)) :
    (∃ q', Twin X T' q') ∧ (T'.outcome = X ↔ T.outcome = X ∧ T.Undisturbed s) := by
  have hquiet : Quiet T T' → (∀ k c, T.phase ≠ .test k c) →
      (∃ q', Twin X T' q') ∧ (T'.outcome = X ↔ T.outcome = X ∧ T.Undisturbed s) := by
    intro hq hph
    obtain ⟨ht, hout⟩ := twin_quiet h hq
    refine ⟨⟨q, ht⟩, ?_⟩
    rw [hout]
    exact ⟨fun hx => ⟨hx, fun k c hp => absurd hp (hph k c)⟩, And.left⟩
  cases hph : T.phase with
  | done err =>
    unfold Thread.step at hs
    rw [hph] at hs
    cases hs
  | head => exact hquiet (quiet_head T T' s v hph hs) (by simp [hph])
  | walk k c t path => exact hquiet (quiet_walk T T' s v k c t path hph hs) (by simp [hph])
  | test k c =>
    obtain ⟨ht, hiff⟩ := twin_test h hph hs
    refine ⟨ht, hiff.trans (and_congr_right fun _ => ?_)⟩
    refine ⟨?_, fun hu => hu k c hph⟩
    intro hb k' c' hp
    rw [hph, Phase.test.injEq] at hp
    exact hp.1 ▸ hb

/-! ## Every run ends -/

/-- T' comes after T, whatever do_store held -/
def Follows (T' T : Thread) : Prop := ∃ s v, T.step s = some (T', v)

theorem acc_done (T : Thread) (err : ℤ) (hph : T.phase = .done err) : Acc Follows T := by
  refine ⟨T, ?_⟩
  rintro T' ⟨s, v, h⟩
  unfold Thread.step at h
  rw [hph] at h
  cases h

theorem acc_test (T : Thread) (k : Kind) (c : Cell) (hph : T.phase = .test k c) (hnext : ∀ p, Acc Follows (T.next p)) :
    Acc Follows T := by
  refine ⟨T, ?_⟩
  rintro T' ⟨s, v, h⟩
  unfold Thread.step at h
  rw [hph, Option.some.injEq, Prod.mk.injEq] at h
  exact h.1 ▸ hnext _

/-- tsearch goes down its tree -/
theorem acc_walk (k : Kind) (c : Cell) (t : STree Cell) : ∀ (T : Thread) (path : List (Frame Cell)),
    T.phase = .walk k c t path → (∀ p, Acc Follows (T.next p)) → Acc Follows T := by
  induction t with
  | leaf =>
    intro T path hph hnext
    refine ⟨T, ?_⟩
    rintro T' ⟨s, v, h⟩
    unfold Thread.step at h
    simp only [hph] at h
    split_ifs at h <;> rw [Option.some.injEq, Prod.mk.injEq] at h <;> obtain ⟨rfl, -⟩ := h
    · exact acc_done _ (-1) rfl
    · exact acc_test _ k c rfl hnext
  | node l x r ihl ihr =>
    intro T path hph hnext
    refine ⟨T, ?_⟩
    rintro T' ⟨s, v, h⟩
    unfold Thread.step at h
    simp only [hph] at h
    split at h <;> rw [Option.some.injEq, Prod.mk.injEq] at h <;> obtain ⟨rfl, -⟩ := h
    · exact acc_test _ k c rfl hnext
    · exact ihl _ _ rfl hnext
    · exact ihr _ _ rfl hnext

/-- the loop goes through the entries -/
theorem acc_head (es : List RduEnt) : ∀ T : Thread, T.es = es → T.phase = .head → Acc Follows T := by
  induction es with
  | nil =>
    intro T hes hph
    refine ⟨T, ?_⟩
    rintro T' ⟨s, v, h⟩
    unfold Thread.step at h
    simp only [hph, hes, Option.some.injEq, Prod.mk.injEq] at h
    exact acc_done T' 0 (by rw [← h.1])
  | cons e es ih =>
    rintro ⟨E, ul, u, _, p, _⟩ rfl rfl
    have hnext : ∀ p', Acc Follows (Thread.next ⟨E, ul, u, e :: es, p, .head⟩ p') := fun _ => ih _ rfl rfl
    refine ⟨_, ?_⟩
    rintro T' ⟨s, v, h⟩
    simp only [Thread.step] at h
    by_cases hpl : plain e = true
    · rw [if_pos hpl] at h
      split at h <;> rw [Option.some.injEq, Prod.mk.injEq] at h <;> obtain ⟨rfl, -⟩ := h
      · exact hnext _
      · exact acc_walk _ _ _ _ _ rfl hnext
    · rw [if_neg hpl, Option.some.injEq, Prod.mk.injEq] at h
      obtain ⟨rfl, -⟩ := h
      exact acc_walk _ _ _ _ _ rfl hnext

theorem acc_enter (E : MergeEnv) (shwh : Bool) (ent : ℕ) (ents : List RduEnt) :
    Acc Follows (Thread.enter E shwh ent ents) := by
  by_cases hp : E.pos_oom = true
  · exact acc_done _ (-1) (by simp [Thread.enter, hp])
  · exact acc_head ents _ rfl (by simp [Thread.enter, hp])

/-! ## Two threads at the same time -/

/-- a directory to merge: its entries in the buffer at ent, and what the C library decides during the merge -/
structure Job where
  E : MergeEnv
  shwh : Bool
  ent : ℕ
  ents : List RduEnt

/-- both threads enter rdu_merge; do_store holds whatever an earlier merge left -/
def start (jobs : Who → Job) (do_store : Bool) : Shared :=
  ⟨do_store, fun w => Thread.enter (jobs w).E (jobs w).shwh (jobs w).ent (jobs w).ents⟩

/-- the merge of the directory on its own: the error, and pos[] as the loop leaves it -/
def Job.alone (j : Job) : ℤ × List Cell :=
  if j.E.pos_oom then (-1, []) else
  let r := merge_loop j.E 0 j.ent j.ents ⟨j.shwh, [], .leaf, .leaf, true⟩
  (r.1, r.2.pos)

/-- the error and pos[] of a thread behind the loop -/
def Thread.result (T : Thread) : Option (ℤ × List Cell) :=
  match T.phase with
  | .done err => some (err, T.p.pos)
  | _ => none

/-- what rdu_merge returns then: pos[] is freed after an error -/
def Thread.merged (T : Thread) : Option (ℤ × List Cell) := T.result.map fun r => if r.1 = 0 then r else (r.1, [])

/-- every test of the thread that steps finds what this thread assigned last -/
def Shared.Undisturbed (s : Shared) (w : Who) : Prop := (s.threads w).Undisturbed s.do_store

/-- **No infinite run.** However the threads take turns, they come to the end of their loops. -/
theorem merges_end (jobs : Who → Job) (do_store : Bool) :
    Acc (fun t s : Shared => ∃ w, s.step w = some t) (start jobs do_store) := by
  have hpair : ∀ A, Acc Follows A → ∀ B, Acc Follows B → ∀ s : Shared, s.threads .a = A → s.threads .b = B →
      Acc (fun t s : Shared => ∃ w, s.step w = some t) s := by
    intro A hA
    induction hA with
    | intro A hA ihA =>
      intro B hB
      induction hB with
      | intro B hB ihB =>
        intro s ha hb
        refine ⟨s, ?_⟩
        rintro t ⟨w, hw⟩
        unfold Shared.step at hw
        rw [Option.map_eq_some_iff] at hw
        obtain ⟨⟨T', v⟩, hT, rfl⟩ := hw
        cases w with
        | a => exact ihA T' ⟨_, v, ha ▸ hT⟩ B ⟨B, hB⟩ _ (by simp) (by simpa using hb)
        | b => exact ihB T' ⟨_, v, hb ▸ hT⟩ _ (by simpa using ha) (by simp)
  exact hpair _ (acc_enter _ _ _ _) _ (acc_enter _ _ _ _) _ rfl rfl

theorem alone_merged (j : Job) :
    (if j.alone.1 = 0 then j.alone else (j.alone.1, [])) = rdu_merge j.E j.shwh j.ent j.ents := by
  unfold rdu_merge Job.alone
  by_cases hp : j.E.pos_oom = true
  · simp [hp]
  · simp only [hp, Bool.false_eq_true, if_false]
    split_ifs with h0
    · rw [h0]
    · rfl

theorem enter_outcome (j : Job) : (Thread.enter j.E j.shwh j.ent j.ents).outcome = j.alone := by
  unfold Thread.outcome Thread.rest Thread.enter Job.alone
  by_cases hp : j.E.pos_oom = true
  · simp only [hp, if_true]
  · simp only [hp, Bool.false_eq_true, if_false]

theorem enter_twin (j : Job) : Twin j.alone (Thread.enter j.E j.shwh j.ent j.ents) [] := by
  refine ⟨enter_outcome j, ?_, ?_⟩
  · intro c hc
    simp [Thread.enter] at hc
  · unfold Thread.Current Thread.enter
    by_cases hp : j.E.pos_oom = true
    · simp only [hp, if_true]
    · simp only [hp, Bool.false_eq_true, if_false]

theorem outcome_result {T : Thread} {r : ℤ × List Cell} (h : T.result = some r) : T.outcome = r := by
  unfold Thread.result at h
  unfold Thread.outcome Thread.rest
  split at h
  · rename_i err hph
    rw [Option.some.injEq] at h
    rw [hph, ← h]
  · cases h

section Run

variable (jobs : Who → Job)

/-- every thread has a twin, and the outcomes are those of the merges on their own -/
def Twins (s : Shared) : Prop := ∀ w, ∃ q, Twin (jobs w).alone (s.threads w) q

def Agree (s : Shared) : Prop := ∀ w, (s.threads w).outcome = (jobs w).alone

theorem shared_step {s t : Shared} {w : Who} (h : Twins jobs s) (hs : s.step w = some t) :
    Twins jobs t ∧ (Agree jobs t ↔ Agree jobs s ∧ s.Undisturbed w) := by
  unfold Shared.step at hs
  rw [Option.map_eq_some_iff] at hs
  obtain ⟨⟨T', v⟩, hT, rfl⟩ := hs
  obtain ⟨q, hq⟩ := h w
  obtain ⟨htwin, hiff⟩ := twin_step hq hT
  have hother : ∀ w', w' ≠ w → Function.update s.threads w T' w' = s.threads w' :=
    fun w' hne => Function.update_of_ne hne _ _
  refine ⟨?_, ?_, ?_⟩
  · intro w'
    by_cases hw : w' = w
    · subst hw
      simpa using htwin
    · simpa only [hother w' hw] using h w'
  · intro ha
    have hw := hiff.1 (by simpa using ha w)
    refine ⟨?_, hw.2⟩
    intro w'
    by_cases hne : w' = w
    · exact hne ▸ hw.1
    · simpa only [hother w' hne] using ha w'
  · rintro ⟨ha, hu⟩ w'
    by_cases hne : w' = w
    · subst hne
      simpa using hiff.2 ⟨ha w', hu⟩
    · simpa only [hother w' hne] using ha w'

/-- **Two merges at the same time.** In every interleaving that runs to the end of both: both end with the error and the
pos[] of the merges one after the other exactly if at every test of do_store the variable holds what the testing thread
itself assigned last; and then rdu_merge returns the same listings. -/
theorem interleaved_merges_iff (do_store : Bool) (sched : List Who) (u : Shared)
    (hrun : exec Shared.step (start jobs do_store) sched = some u) (hdone : ∀ w, (u.threads w).result.isSome) :
    ((∀ w, (u.threads w).result = some (jobs w).alone) ↔
        Along Shared.step Shared.Undisturbed (start jobs do_store) sched) ∧
      (Along Shared.step Shared.Undisturbed (start jobs do_store) sched →
        ∀ w, (u.threads w).merged = some (rdu_merge (jobs w).E (jobs w).shwh (jobs w).ent (jobs w).ents)) := by
  have hiff : (∀ w, (u.threads w).result = some (jobs w).alone) ↔
      Along Shared.step Shared.Undisturbed (start jobs do_store) sched := by
    have hrel := exec_iff_along Shared.step (Twins jobs) (Agree jobs) Shared.Undisturbed
      (fun s w t h hs => (shared_step jobs h hs).1) (fun s w t h hs => (shared_step jobs h hs).2)
      (fun w => ⟨[], enter_twin (jobs w)⟩) hrun
    have hinit : Agree jobs (start jobs do_store) := fun w => enter_outcome (jobs w)
    calc (∀ w, (u.threads w).result = some (jobs w).alone)
        ↔ Agree jobs u := by
          refine forall_congr' fun w => ?_
          obtain ⟨r, hr⟩ := Option.isSome_iff_exists.1 (hdone w)
          rw [hr, outcome_result hr, Option.some.injEq]
      _ ↔ Agree jobs (start jobs do_store) ∧ Along Shared.step Shared.Undisturbed (start jobs do_store) sched := hrel
      _ ↔ Along Shared.step Shared.Undisturbed (start jobs do_store) sched := and_iff_right hinit
  refine ⟨hiff, ?_⟩
  intro hal w
  unfold Thread.merged
  rw [hiff.2 hal w, Option.map_some, alone_merged]

end Run

/-- an entry with a name of one letter -/
def letter (ino : ℕ) (bindex : ℤ) (c : UInt8) (hc : 0 ≠ c) : RduEnt :=
  ⟨ino, bindex, 8, false, [c], List.cons_ne_nil c [], by simp, by simpa using hc⟩

/-- a merges one new name, b the same name from two branches -/
def twoJobs : Who → Job
  | .a => ⟨plainLibc, false, 64, [letter 11 0 97 (by decide)]⟩
  | .b => ⟨plainLibc, false, 4096, [letter 21 0 98 (by decide), letter 22 1 98 (by decide)]⟩

def Shared.both (s : Shared) : Option (ℤ × List Cell) × Option (ℤ × List Cell) :=
  ((s.threads .a).result, (s.threads .b).result)

/-- two threads in turn, but no comparison of b between an assignment of a and its test -/
theorem interleaved_merges_in_turn :
    ∃ u, exec Shared.step (start twoJobs false) [.a, .b, .b, .a, .a, .b, .b, .b, .a, .b, .b] = some u ∧
      ∀ w, (u.threads w).merged =
        some (rdu_merge (twoJobs w).E (twoJobs w).shwh (twoJobs w).ent (twoJobs w).ents) := by
  have hr : (exec Shared.step (start twoJobs false) [.a, .b, .b, .a, .a, .b, .b, .b, .a, .b, .b]).map Shared.both =
      some (some (twoJobs .a).alone, some (twoJobs .b).alone) := by decide +kernel
  obtain ⟨u, hu, hres⟩ := Option.map_eq_some_iff.1 hr
  rw [Shared.both, Prod.mk.injEq] at hres
  have hall : ∀ w, (u.threads w).result = some (twoJobs w).alone
    | .a => hres.1
    | .b => hres.2
  have hiff := interleaved_merges_iff twoJobs false _ u hu fun w => by rw [hall w]; rfl
  exact ⟨u, hu, hiff.2 (hiff.1.1 hall)⟩

/-- b finds its duplicate between the search and the test of a: a drops its only name -/
theorem entry_dropped :
    ¬ ∀ (jobs : Who → Job) (do_store : Bool) (sched : List Who) (u : Shared),
      exec Shared.step (start jobs do_store) sched = some u → (∀ w, (u.threads w).result.isSome) →
        ∀ w, (u.threads w).merged = some (rdu_merge (jobs w).E (jobs w).shwh (jobs w).ent (jobs w).ents) := by
  intro h
  have hr : (exec Shared.step (start twoJobs false) [.a, .a, .b, .b, .b, .b, .b, .a, .a, .b, .b]).map Shared.both =
      some (some (0, []), some (twoJobs .b).alone) := by decide +kernel
  obtain ⟨u, hu, hres⟩ := Option.map_eq_some_iff.1 hr
  rw [Shared.both, Prod.mk.injEq] at hres
  have hdone : ∀ w, (u.threads w).result.isSome
    | .a => by rw [hres.1]; rfl
    | .b => by rw [hres.2]; rfl
  have ha := h twoJobs false _ u hu hdone .a
  rw [Thread.merged, hres.1] at ha
  revert ha
  decide +kernel

end AufsUtil.Rdu
