/-
Runs of a machine whose steps are chosen from outside.

A machine is a step function `step : σ → α → Option σ`: the input α says which step happens and how everything the
program does not control turns out; `none` means that this step is not possible in this state. A run is a list of
inputs, and `exec` its final state.

- `exec_invariant`: what holds initially and is kept by every step holds after every run; `exec_invariant_of` when only
  inputs of some kind occur.
- `exec_relation`: a reflexive and transitive relation between the states before and after every step holds between the
  first and the last state of every run.
- `exec_balance`: an account that every step balances is balanced over every run (`gain`).
- `exec_map`: a run of a machine that refines another, step by step.
- `exec_invariant_along`: what every step keeps that meets a condition on the state and the input is kept by a run whose
  steps all meet it (`Along`).
- `exec_iff_along`: a property that a step keeps if it meets a condition, and loses for good if it does not, holds after
  a run exactly if every step of the run met the condition; `along_of_step`, `along_of_kind`: what every step, or every
  input of some kind, meets holds along every run; `along_congr`: two conditions that agree at every step agree along a
  run; `along_iff`: and along a sequence of inputs that is not one; `along_last`: what is met along such a sequence is
  met in the state before its last input.
-/
import Mathlib.Tactic

namespace AufsUtil.Runs

variable {σ α : Type} (step : σ → α → Option σ)

def exec : σ → List α → Option σ
  | s, [] => some s
  | s, a :: as => (step s a).bind fun t => exec t as

@[simp] theorem exec_nil (s : σ) : exec step s [] = some s := rfl

theorem exec_cons {s u : σ} {a : α} {as : List α} :
    exec step s (a :: as) = some u ↔ ∃ t, step s a = some t ∧ exec step t as = some u := by
  simp [exec, Option.bind_eq_some_iff]

theorem exec_append {s u : σ} {as bs : List α} :
    exec step s (as ++ bs) = some u ↔ ∃ t, exec step s as = some t ∧ exec step t bs = some u := by
  induction as generalizing s with
  | nil => simp
  | cons a as ih =>
    simp only [List.cons_append, exec_cons, ih]
    refine ⟨fun ⟨t, ht, v, hv, hu⟩ => ⟨v, ⟨t, ht, hv⟩, hu⟩, fun ⟨v, ⟨t, ht, hv⟩, hu⟩ => ⟨t, ht, v, hv, hu⟩⟩

/-- a run of inputs of a kind P keeps what every such step keeps -/
theorem exec_invariant_of (P : α → Prop) (I : σ → Prop) (hstep : ∀ s a t, P a → I s → step s a = some t → I t)
    {s u : σ} {as : List α} (hP : ∀ a ∈ as, P a) (hs : I s) (h : exec step s as = some u) : I u := by
  induction as generalizing s with
  | nil =>
    rw [exec_nil, Option.some.injEq] at h
    exact h ▸ hs
  | cons a as ih =>
    obtain ⟨t, ht, hu⟩ := (exec_cons step).1 h
    exact ih (fun b hb => hP b (List.mem_cons_of_mem a hb)) (hstep s a t (hP a List.mem_cons_self) hs ht) hu

theorem exec_invariant (I : σ → Prop) (hstep : ∀ s a t, I s → step s a = some t → I t) {s u : σ} {as : List α}
    (hs : I s) (h : exec step s as = some u) : I u :=
  exec_invariant_of step (fun _ => True) I (fun s a t _ => hstep s a t) (fun _ _ => trivial) hs h

/-- a relation that every step from an invariant state establishes holds over whole runs -/
theorem exec_relation (I : σ → Prop) (R : σ → σ → Prop) (hrefl : ∀ s, R s s) (htrans : ∀ s t u, R s t → R t u → R s u)
    (hstep : ∀ s a t, I s → step s a = some t → I t ∧ R s t) {s u : σ} {as : List α} (hs : I s)
    (h : exec step s as = some u) : R s u := by
  induction as generalizing s with
  | nil =>
    rw [exec_nil, Option.some.injEq] at h
    exact h ▸ hrefl s
  | cons a as ih =>
    obtain ⟨t, ht, hu⟩ := (exec_cons step).1 h
    obtain ⟨hit, hr⟩ := hstep s a t hs ht
    exact htrans s t u hr (ih hit hu)

/-- a machine that does, step by step, what another does on the images of its states, does so over whole runs -/
theorem exec_map {τ : Type} (step' : τ → α → Option τ) (f : σ → τ) (P : α → Prop) (I : σ → Prop)
    (hI : ∀ s a t, P a → I s → step s a = some t → I t) (hstep : ∀ s a, P a → I s → (step s a).map f = step' (f s) a)
    {s : σ} {as : List α} (hP : ∀ a ∈ as, P a) (hs : I s) : (exec step s as).map f = exec step' (f s) as := by
  induction as generalizing s with
  | nil => rfl
  | cons a as ih =>
    have ha := hP a List.mem_cons_self
    rw [exec, exec, ← hstep s a ha hs]
    cases ht : step s a with
    | none => rfl
    | some t => exact ih (fun b hb => hP b (List.mem_cons_of_mem a hb)) (hI s a t ha hs ht)

/-- what the steps of a run from s add up to -/
def gain (δ : σ → α → σ → ℤ) : σ → List α → ℤ
  | _, [] => 0
  | s, a :: as =>
    match step s a with
    | none => 0
    | some t => δ s a t + gain δ t as

/-- what is there and what was lost is what was there and what has come, if it is so for every step -/
theorem exec_balance (φ : σ → ℤ) (δ ε : σ → α → σ → ℤ)
    (hstep : ∀ s a t, step s a = some t → φ t + δ s a t = φ s + ε s a t) {s u : σ} {as : List α}
    (h : exec step s as = some u) : φ u + gain step δ s as = φ s + gain step ε s as := by
  induction as generalizing s with
  | nil =>
    rw [exec_nil, Option.some.injEq] at h
    rw [h, gain, gain]
  | cons a as ih =>
    obtain ⟨t, ht, hu⟩ := (exec_cons step).1 h
    simp only [gain, ht]
    linarith [hstep s a t ht, ih hu]

/-- every step of the run from s meets P, a condition on the state before it and the input -/
def Along (P : σ → α → Prop) : σ → List α → Prop
  | _, [] => True
  | s, a :: as => P s a ∧ ∀ t, step s a = some t → Along P t as

theorem along_cons {P : σ → α → Prop} {s t : σ} {a : α} {as : List α} (ht : step s a = some t) :
    Along step P s (a :: as) ↔ P s a ∧ Along step P t as := by
  refine ⟨fun ⟨hP, h⟩ => ⟨hP, h t ht⟩, fun ⟨hP, h⟩ => ⟨hP, ?_⟩⟩
  intro t' ht'
  rw [ht, Option.some.injEq] at ht'
  exact ht' ▸ h

instance Along.decidable {P : σ → α → Prop} [∀ s a, Decidable (P s a)] : ∀ s as, Decidable (Along step P s as)
  | _, [] => isTrue trivial
  | s, a :: as =>
    match h : step s a with
    | none => decidable_of_iff (P s a) ⟨fun hP => ⟨hP, fun _ ht => nomatch h.symm.trans ht⟩, And.left⟩
    | some t =>
      have := Along.decidable (P := P) t as
      decidable_of_iff (P s a ∧ Along step P t as) (along_cons step h).symm

/-- a run all of whose steps meet P keeps what every such step keeps -/
theorem exec_invariant_along {P : σ → α → Prop} (I : σ → Prop)
    (hstep : ∀ s a t, I s → P s a → step s a = some t → I t) {s u : σ} {as : List α} (hs : I s)
    (hP : Along step P s as) (h : exec step s as = some u) : I u := by
  induction as generalizing s with
  | nil =>
    rw [exec_nil, Option.some.injEq] at h
    exact h ▸ hs
  | cons a as ih =>
    obtain ⟨t, ht, hu⟩ := (exec_cons step).1 h
    exact ih (hstep s a t hs hP.1 ht) (hP.2 t ht) hu

theorem exec_iff_along (I G : σ → Prop) (P : σ → α → Prop) (hI : ∀ s a t, I s → step s a = some t → I t)
    (hG : ∀ s a t, I s → step s a = some t → (G t ↔ G s ∧ P s a)) {s u : σ} {as : List α} (hs : I s)
    (h : exec step s as = some u) : G u ↔ G s ∧ Along step P s as := by
  induction as generalizing s with
  | nil =>
    rw [exec_nil, Option.some.injEq] at h
    rw [h]
    exact ⟨fun hu => ⟨hu, trivial⟩, And.left⟩
  | cons a as ih =>
    obtain ⟨t, ht, hu⟩ := (exec_cons step).1 h
    rw [ih (hI s a t hs ht) hu, hG s a t hs ht, along_cons step ht, and_assoc]

/-- what is met along a run is met by a further step, even if that one is not possible -/
theorem along_last {P : σ → α → Prop} {s t : σ} {a : α} {as : List α} (ht : exec step s as = some t)
    (h : Along step P s (as ++ [a])) : P t a := by
  induction as generalizing s with
  | nil =>
    rw [exec_nil, Option.some.injEq] at ht
    exact ht ▸ h.1
  | cons b as ih =>
    obtain ⟨u, hu, hrest⟩ := (exec_cons step).1 ht
    exact ih hrest (h.2 u hu)

/-- conditions that agree in the states of an invariant agree along every sequence of inputs, possible or not -/
theorem along_iff (I : σ → Prop) (P Q : σ → α → Prop) (hI : ∀ s a t, I s → step s a = some t → I t)
    (hPQ : ∀ s a, I s → (P s a ↔ Q s a)) {s : σ} (hs : I s) (as : List α) :
    Along step P s as ↔ Along step Q s as := by
  induction as generalizing s with
  | nil => exact Iff.rfl
  | cons a as ih =>
    refine and_congr (hPQ s a hs) ?_
    refine forall_congr' fun t => ?_
    refine imp_congr_right fun ht => ?_
    exact ih (hI s a t hs ht)

/-- a condition that every step from a state of an invariant meets holds along every run -/
theorem along_of_step (I : σ → Prop) (P : σ → α → Prop) (hI : ∀ s a t, I s → step s a = some t → I t)
    (hP : ∀ s a t, I s → step s a = some t → P s a) {s u : σ} {as : List α} (hs : I s) (h : exec step s as = some u) :
    Along step P s as := by
  induction as generalizing s with
  | nil => exact trivial
  | cons a as ih =>
    obtain ⟨t, ht, hu⟩ := (exec_cons step).1 h
    exact (along_cons step ht).2 ⟨hP s a t hs ht, ih (hI s a t hs ht) hu⟩

/-- a condition that every input of a kind K meets in the states of an invariant holds along all of them -/
theorem along_of_kind (K : α → Prop) (I : σ → Prop) (P : σ → α → Prop)
    (hI : ∀ s a t, K a → I s → step s a = some t → I t) (hP : ∀ s a, K a → I s → P s a) {s : σ} {as : List α}
    (hK : ∀ a ∈ as, K a) (hs : I s) : Along step P s as := by
  induction as generalizing s with
  | nil => exact trivial
  | cons a as ih =>
    have ha := hK a List.mem_cons_self
    exact ⟨hP s a ha hs, fun t ht => ih (fun b hb => hK b (List.mem_cons_of_mem a hb)) (hI s a t ha hs ht)⟩

/-- conditions that agree in the states of an invariant agree along every run of inputs of a kind K -/
theorem along_congr (K : α → Prop) (I : σ → Prop) (P Q : σ → α → Prop)
    (hI : ∀ s a t, I s → step s a = some t → I t)
    (hPQ : ∀ s a t, K a → I s → step s a = some t → (P s a ↔ Q s a)) {s u : σ} {as : List α} (hK : ∀ a ∈ as, K a)
    (hs : I s) (h : exec step s as = some u) : Along step P s as ↔ Along step Q s as := by
  induction as generalizing s with
  | nil => exact Iff.rfl
  | cons a as ih =>
    obtain ⟨t, ht, hu⟩ := (exec_cons step).1 h
    have hrest := ih (fun b hb => hK b (List.mem_cons_of_mem a hb)) (hI s a t hs ht) hu
    rw [along_cons step ht, along_cons step ht, hPQ s a t (hK a List.mem_cons_self) hs ht, hrest]

end AufsUtil.Runs
