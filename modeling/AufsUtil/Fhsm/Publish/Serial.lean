/-
The order in which the table is published (`Fhsm/Publish/Model.lean`).

- `publish_serial`: whatever the processes do in between, what an unlocked memory holds is what the runs on it leave
  when they are done one after the other, in the order in which they had the lock.
- `loaded_serial`: the daemon never works by anything else, and what it works by is signed.
-/
import Mathlib.Tactic
import AufsUtil.Fhsm.Publish.Invariant

namespace AufsUtil.Fhsm.Publish

open AufsUtil.CStr AufsUtil.SortSearch AufsUtil.Runs
open AufsUtil.Fhsm.Reload (LoadSys au_fhsm_load)

variable {F : Type} {fl : Floats F} {qs : Qsort bridOrd (Wmark.brid (F := F))} {qp : Qsort strcmp Brinfo.path}
  {bp : Bsearch strcmp Brinfo.path} {shm : Option (Aufhsm F)} {s : Sys F}

/-- **One after the other.** In every state of every run a memory that no controller has locked holds what the runs on
it leave, one after the other, in the order in which they had it, from what was there before. -/
theorem publish_serial {j : ℕ → Job} {acts : List (Act F)}
    (h : exec (step fl qs qp bp) (Sys.init shm j) acts = some s) (id : ℕ)
    (hfree : ∀ p, s.lock id ≠ some (.ctl p)) :
    s.content id = serial fl qs qp bp (base shm id) (s.log id) := by
  rw [← (run_inv h).due id, due_free hfree]

theorem publish_serial_two : ∃ s, exec two_step two_init two_acts = some s ∧ (s.log 1).length = 2 ∧
    s.content 1 = serial ratFloats bridSort pathSort pathSearch none (s.log 1) := by
  obtain ⟨s, hs, -, -, -, -, hlock, -, hlog, -⟩ := two_run
  exact ⟨s, hs, hlog, publish_serial hs 1 fun p hp => nomatch hlock.symm.trans hp⟩

/-! ## What the daemon works by -/

theorem failed_lcopy (s : Sys F) (first : Bool) : (s.failed first).lcopy = none := by cases first <;> rfl

/-- the copy is replaced by what is read under the lock, or lost -/
theorem lcopy_cases {a : Act F} {t : Sys F} (hstep : step fl qs qp bp s a = some t) :
    t.lcopy = s.lcopy ∨ t.lcopy = none ∨
      ∃ first id sys, s.dpc = .locked first id ∧ t.lcopy = au_fhsm_load fl (s.content id) sys := by
  cases hctl : a.ctl with
  | some p => exact Or.inl (ctl_keeps hstep hctl).lcopy
  | none =>
    cases step_cases hstep with
    | dstart | dopen | dlock | dmsg | dreload => exact Or.inl rfl
    | dstop => exact Or.inr (Or.inl rfl)
    | unopened hpc hno => exact Or.inr (Or.inl (failed_lcopy s _))
    | dunlocked hpc => exact Or.inr (Or.inl (failed_lcopy s _))
    | unread hpc hload => exact Or.inr (Or.inl (failed_lcopy _ _))
    | @read first id sys u hpc hload => exact Or.inr (Or.inr ⟨first, id, sys, hpc, hload.symm⟩)
    | _ => cases hctl

theorem step_log {a : Act F} {t : Sys F} (hstep : step fl qs qp bp s a = some t) (id : ℕ) : s.log id <+: t.log id := by
  cases hctl : a.ctl with
  | some p => exact (ctl_keeps hstep hctl).log id
  | none => rw [(daemon_keeps hstep hctl).log]

variable (fl qs qp bp) in
/-- the daemon's copy is signed, and runs on one memory have left it -/
def FromRuns (shm : Option (Aufhsm F)) (s : Sys F) : Prop :=
  ∀ t, s.lcopy = some t → au_fhsm_sign_verify fl t = true ∧
    ∃ id log, log <+: s.log id ∧ serial fl qs qp bp (base shm id) log = some t

theorem from_runs_step (h : Inv fl qs qp bp shm s) (hs : FromRuns fl qs qp bp shm s) {a : Act F} {t : Sys F}
    (hstep : step fl qs qp bp s a = some t) : FromRuns fl qs qp bp shm t := by
  intro u hu
  rcases lcopy_cases hstep with hsame | hnone | ⟨first, id, sys, hpc, hload⟩
  · obtain ⟨hv, id, log, hlog, hserial⟩ := hs u (hsame ▸ hu)
    exact ⟨hv, id, log, hlog.trans (step_log hstep id), hserial⟩
  · rw [hnone] at hu
    cases hu
  · have hlock := (h.dholds id).1 (by rw [hpc]; rfl)
    have hcontent := h.due id
    rw [due_free fun p hp => nomatch hlock.symm.trans hp] at hcontent
    obtain ⟨hshm, hv, -⟩ := (Reload.au_fhsm_load_eq_some).1 (hload.symm.trans hu)
    exact ⟨hv, id, s.log id, step_log hstep id, hcontent.symm.trans hshm⟩

/-- **Whole tables.** Whatever the daemon works by is signed, and it is what some runs on one memory have left, one
after the other, whenever the daemon has loaded. -/
theorem loaded_serial {j : ℕ → Job} {acts : List (Act F)}
    (h : exec (step fl qs qp bp) (Sys.init shm j) acts = some s) {t : Aufhsm F} (ht : s.lcopy = some t) :
    au_fhsm_sign_verify fl t = true ∧
      ∃ id log, log <+: s.log id ∧ serial fl qs qp bp (base shm id) log = some t := by
  have hboth : Inv fl qs qp bp shm s ∧ FromRuns fl qs qp bp shm s := by
    refine exec_invariant _ (fun s => Inv fl qs qp bp shm s ∧ FromRuns fl qs qp bp shm s) ?_ ?_ h
    · exact fun _ _ _ hs hstep => ⟨step_inv hs.1 hstep, from_runs_step hs.1 hs.2 hstep⟩
    · exact ⟨init_inv fl qs qp bp shm j, nofun⟩
  exact hboth.2 t ht

/-- the daemon has loaded what some of the runs on the new memory have left -/
theorem loaded_serial_two : ∃ s t, exec two_step two_init two_acts = some s ∧ s.lcopy = some t ∧
    au_fhsm_sign_verify ratFloats t = true ∧
      ∃ id log, log <+: s.log id ∧ serial ratFloats bridSort pathSort pathSearch (base none id) log = some t := by
  obtain ⟨s, hs, -, -, -, -, -, -, -, hsome⟩ := two_run
  obtain ⟨t, ht⟩ := Option.isSome_iff_exists.1 hsome
  exact ⟨s, t, hs, ht, loaded_serial hs ht⟩

end AufsUtil.Fhsm.Publish
