/-
The name of the shared memory (`Fhsm/Publish/Model.lean`): `aufhsm --recreate` and a creation that has failed unlink it.

- `name_cases`: what a step does to the name.
- `name_kept_iff`: a memory is still found by its name exactly if nobody has unlinked the name since.
-/
import Mathlib.Tactic
import AufsUtil.Fhsm.Publish.Invariant

namespace AufsUtil.Fhsm.Publish

open AufsUtil.CStr AufsUtil.SortSearch AufsUtil.Runs
open AufsUtil.Fhsm.Reload (LoadSys au_fhsm_load)

variable {F : Type} {fl : Floats F} {qs : Qsort bridOrd (Wmark.brid (F := F))} {qp : Qsort strcmp Brinfo.path}
  {bp : Bsearch strcmp Brinfo.path} {shm : Option (Aufhsm F)} {s : Sys F}

/-- this step takes the name away -/
def Act.Unlinks : Act F → Prop
  | .enter _ j => j.o.recreate = true ∧ j.sys.unlink = true
  | .clean _ => True
  | _ => False

theorem work_name (fl : Floats F) (qs : Qsort bridOrd (Wmark.brid (F := F))) (s : Sys F) (p : ℕ) (made : Bool) (id : ℕ)
    (junk : Option (Aufhsm F)) :
    (work fl qs s p made id junk).name = s.name ∧ (work fl qs s p made id junk).next = s.next := by
  rw [work]
  by_cases hfound : (!made && (s.content id).isNone) = true
  · rw [if_pos hfound]
    exact ⟨rfl, rfl⟩
  · rw [if_neg hfound]
    dsimp only
    split
    · exact ⟨rfl, rfl⟩
    · exact ⟨rfl, rfl⟩
    · split
      · exact ⟨rfl, rfl⟩
      · split <;> exact ⟨rfl, rfl⟩

theorem arg_name (s : Sys F) (p id : ℕ) (str : Bytes) (rest : List Bytes) :
    (arg fl qp bp s p id str rest).name = s.name ∧ (arg fl qp bp s p id str rest).next = s.next := by
  rw [arg]
  split <;> exact ⟨rfl, rfl⟩

/-- the name goes from one memory to none, and from none to a new one -/
theorem name_cases {a : Act F} {t : Sys F} (hstep : step fl qs qp bp s a = some t) :
    t.name = s.name ∧ t.next = s.next ∧ ¬a.Unlinks ∨ t.name = none ∧ t.next = s.next ∧ a.Unlinks ∨
      s.name = none ∧ t.name = some s.next ∧ t.next = s.next + 1 ∧ ¬a.Unlinks := by
  cases hctl : a.ctl with
  | none =>
    have hkeeps := daemon_keeps hstep hctl
    have hun : ¬a.Unlinks := by cases a <;> first | exact id | cases hctl
    exact Or.inl ⟨hkeeps.name, hkeeps.next, hun⟩
  | some p =>
    cases step_cases hstep with
    | @enter p j hpc hrun =>
      by_cases hun : (j.o.recreate && j.sys.unlink) = true
      · exact Or.inr (Or.inl ⟨if_pos hun, rfl, Bool.and_eq_true_iff.1 hun⟩)
      · exact Or.inl ⟨if_neg hun, rfl, fun h => hun (Bool.and_eq_true_iff.2 h)⟩
    | made hpc hname => exact Or.inr (Or.inr ⟨hname, rfl, rfl, id⟩)
    | clean hpc => exact Or.inr (Or.inl ⟨rfl, rfl, trivial⟩)
    | work hpc =>
      obtain ⟨hname, hnext⟩ := work_name fl qs s _ _ _ _
      exact Or.inl ⟨hname, hnext, id⟩
    | arg hpc =>
      obtain ⟨hname, hnext⟩ := arg_name s _ _ _ _
      exact Or.inl ⟨hname, hnext, id⟩
    | uncreated | taken | mapped | unmapped | unlocked | lock | sign | close | tell => exact Or.inl ⟨rfl, rfl, id⟩
    | _ => cases hctl

theorem step_name {id : ℕ} (hid : id < s.next) {a : Act F} {t : Sys F} (hstep : step fl qs qp bp s a = some t) :
    (t.name = some id ↔ s.name = some id ∧ ¬a.Unlinks) ∧ id < t.next := by
  rcases name_cases hstep with ⟨hname, hnext, hun⟩ | ⟨hname, hnext, hun⟩ | ⟨hnone, hname, hnext, -⟩
  · rw [hname, hnext]
    exact ⟨(and_iff_left hun).symm, hid⟩
  · rw [hname, hnext]
    exact ⟨iff_of_false nofun fun h => h.2 hun, hid⟩
  · rw [hname, hnext, hnone]
    exact ⟨iff_of_false (fun h => hid.ne' (Option.some.inj h)) nofun, Nat.lt_succ_of_lt hid⟩

theorem run_name {id : ℕ} {acts : List (Act F)} {t : Sys F} (hid : id < s.next)
    (ht : exec (step fl qs qp bp) s acts = some t) :
    t.name = some id ↔ s.name = some id ∧ ∀ a ∈ acts, ¬a.Unlinks := by
  induction acts generalizing s with
  | nil =>
    rw [exec_nil, Option.some.injEq] at ht
    rw [ht]
    exact ⟨fun h => ⟨h, nofun⟩, And.left⟩
  | cons a acts ih =>
    obtain ⟨u, hu, ht⟩ := (exec_cons _).1 ht
    obtain ⟨hname, hlt⟩ := step_name hid hu
    rw [ih hlt ht, hname, and_assoc, List.forall_mem_cons]

/-- **A lost table.** A memory that has the name in some state has it later on exactly if no step in between takes the
name away. -/
theorem name_kept_iff {j : ℕ → Job} {acts acts' : List (Act F)}
    (h : exec (step fl qs qp bp) (Sys.init shm j) acts = some s) {id : ℕ} (hname : s.name = some id) {t : Sys F}
    (ht : exec (step fl qs qp bp) s acts' = some t) :
    t.name = some id ↔ ∀ a ∈ acts', ¬a.Unlinks :=
  (run_name ((run_inv h).name id hname) ht).trans (and_iff_right hname)

/-- while the first controller waits for the lock, the second one takes the name away and makes a memory of its own -/
theorem name_kept_lost : ∃ s t, exec two_step two_init [.enter 0 new_job, .create 0 true] = some s ∧
    exec two_step s [.enter 1 new_job, .create 1 true, .lock 0 true, .work 0 none, .sign 0, .close 0 true] = some t ∧
    s.name = some 1 ∧ t.name ≠ some 1 := by
  obtain ⟨s, hs, hname⟩ : ∃ s, exec two_step two_init [.enter 0 new_job, .create 0 true] = some s ∧ s.name = some 1 :=
    exec_any (by decide +kernel)
  have hall : (exec two_step two_init ([.enter 0 new_job, .create 0 true] ++
      [.enter 1 new_job, .create 1 true, .lock 0 true, .work 0 none, .sign 0, .close 0 true])).isSome = true := by
    decide +kernel
  obtain ⟨t, ht⟩ := Option.isSome_iff_exists.1 hall
  obtain ⟨s', hs', ht⟩ := (exec_append _).1 ht
  obtain rfl : s = s' := Option.some.inj (hs.symm.trans hs')
  refine ⟨s, t, hs, ht, hname, fun hkept => ?_⟩
  exact (name_kept_iff hs hname ht).1 hkept _ List.mem_cons_self ⟨rfl, rfl⟩

end AufsUtil.Fhsm.Publish
