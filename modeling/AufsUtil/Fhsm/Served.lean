/-
Branches blocked by a dead child (`fhsm/event.c` handle_sig, `fhsm/mvdown.c` au_mvdown_run).

The daemon serves a branch only if in_ope has no entry for it, and ends only if in_ope is empty. At a daemon that sleeps
in epoll_wait with no SIGCHLD pending, every entry should belong to a running child (`AllRunning`). handle_sig takes out
one entry for one SIGCHLD, and waits for that one child, so this fails in two ways:
- a child exits while the SIGCHLD of another one is pending: the two signals are one, nobody waits for the later child;
- fork(2) fails: the entry stays with pid 0, and no signal carries that pid. `served_iff`: these are the only two ways,
  and neither heals. The runs are those of `step` in which children exit but are never stopped, since a SIGCHLD carries
  the pid of an exited child there.
-/
import Mathlib.Tactic
import AufsUtil.Lib.Runs
import AufsUtil.Fhsm.Daemon
import AufsUtil.Fhsm.Children

namespace AufsUtil.Fhsm

open AufsUtil.Runs

/-! ## Runs in which children exit, but are not stopped -/

def exit_step (d : Daemon) : Act → Option Daemon
  | .child_stop _ | .child_cont _ => none
  | a => step d a

/-- every entry of in_ope belongs to a running child -/
def AllRunning (d : Daemon) : Prop :=
  ∀ e ∈ d.in_ope, ∃ k ∈ d.kids, k.pid = e.pid ∧ k.brid = e.brid ∧ k.life = .running

instance (d : Daemon) : Decidable (AllRunning d) := inferInstanceAs (Decidable (∀ _ ∈ _, _))

/-- no fork fails, and a child exits only when no SIGCHLD is pending -/
def Quiet (d : Daemon) : Act → Prop
  | .mvdown none => attempts d = false
  | .child_exit _ => d.sigchld = none
  | _ => True

/-- the child that a SIGCHLD tells about, and the one waited for, are two zombies -/
structure Exits (d : Daemon) : Prop where
  alive : ∀ k ∈ d.kids, k.life ≠ .stopped
  sig : ∀ p, d.sigchld = some p → ∃ k ∈ d.kids, k.pid = p ∧ k.life = .zombie
  wait : ∀ p, waiting d = some p → ∃ k ∈ d.kids, k.pid = p ∧ k.life = .zombie
  apart : ∀ p, d.sigchld = some p → waiting d ≠ some p

theorem exits_init (n : ℕ) : Exits (init n) := by
  refine ⟨?_, ?_, ?_, ?_⟩ <;> simp [init, waiting]

section Steps

variable {d d' : Daemon} {a : Act}

/-- a step of these runs is a step, and no child is stopped or continued -/
theorem exit_step_spec (h : exit_step d a = some d') :
    step d a = some d' ∧ (∀ p, a ≠ .child_stop p) ∧ ∀ p, a ≠ .child_cont p := by
  cases a with
  | child_stop p => cases h
  | child_cont p => cases h
  | _ => exact ⟨h, by simp, by simp⟩

/-- a zombie stays one, whatever child exits -/
theorem Changed.zombie {k : Kid} (h : Changed d d' k .zombie) {p : ℕ}
    (hz : ∃ m ∈ d.kids, m.pid = p ∧ m.life = .zombie) : ∃ l ∈ d'.kids, l.pid = p ∧ l.life = .zombie := by
  obtain ⟨m, hm, hmp, hmz⟩ := hz
  refine ⟨if m.pid = k.pid then { m with life := .zombie } else m, ?_, ?_⟩
  · rw [h.kids]
    exact List.mem_map_of_mem hm
  · split_ifs
    · exact ⟨hmp, rfl⟩
    · exact ⟨hmp, hmz⟩

/-- the child that exits is a zombie then -/
theorem Changed.self {k : Kid} (h : Changed d d' k .zombie) : ∃ l ∈ d'.kids, l.pid = k.pid ∧ l.life = .zombie := by
  refine ⟨{ k with life := .zombie }, ?_, rfl, rfl⟩
  rw [h.kids, List.mem_map]
  exact ⟨k, h.mem, if_pos rfl⟩

/-- no zombie has the pid of a child that exits -/
theorem Changed.not_zombie {k : Kid} {new : Life} (h : Changed d d' k new) (hp : Proc d) {m : Kid} (hm : m ∈ d.kids)
    (hz : m.life = .zombie) : m.pid ≠ k.pid := by
  intro hmk
  obtain rfl := List.inj_on_of_nodup_map hp.pid_nodup hm h.mem hmk
  exact h.alive hz

theorem Changed.exits {k : Kid} (h : Changed d d' k .zombie) (hp : Proc d) (hi : Exits d) : Exits d' := by
  refine ⟨?_, ?_, fun p hw => h.zombie (hi.wait p (h.wait ▸ hw)), ?_⟩
  · intro l hl
    obtain ⟨m, hm, -, -, -, -, ⟨-, hz⟩ | ⟨-, rfl⟩⟩ := h.kid hl
    · rw [hz]
      decide
    · exact hi.alive m hm
  · intro p hs
    rw [h.sigchld, Option.or_eq_some_iff, Option.some.injEq] at hs
    rcases hs with hs | ⟨-, rfl⟩
    · exact h.zombie (hi.sig p hs)
    · exact h.self
  · intro p hs hw
    rw [h.sigchld, Option.or_eq_some_iff, Option.some.injEq] at hs
    rw [h.wait] at hw
    rcases hs with hs | ⟨-, rfl⟩
    · exact hi.apart p hs hw
    · obtain ⟨m, hm, hmp, hz⟩ := hi.wait _ hw
      exact h.not_zombie hp hm hz hmp

/-- a daemon that waits for nobody -/
theorem exits_idle (hw : waiting d = none) (halive : ∀ k ∈ d.kids, k.life ≠ .stopped)
    (hsig : ∀ p, d.sigchld = some p → ∃ k ∈ d.kids, k.pid = p ∧ k.life = .zombie) : Exits d := by
  refine ⟨halive, hsig, ?_, ?_⟩
  · intro p hp
    rw [hw] at hp
    cases hp
  · intro p _ hp
    rw [hw] at hp
    cases hp

theorem Forked.exits {brid : ℤ} {pid : ℕ} (h : Forked d d' brid pid) (hi : Exits d) : Exits d' := by
  apply exits_idle h.wait
  · intro k hk
    rw [h.kids, List.mem_cons] at hk
    rcases hk with rfl | hk
    · simp
    · exact hi.alive k hk
  · intro p hs
    rw [h.sigchld] at hs
    obtain ⟨k, hk, hkp⟩ := hi.sig p hs
    exact ⟨k, h.kids ▸ List.mem_cons_of_mem _ hk, hkp⟩

theorem GotChld.exits {pid : ℕ} (h : GotChld d d' pid) (hi : Exits d) : Exits d' := by
  refine ⟨h.kids ▸ hi.alive, ?_, ?_, ?_⟩
  · intro p hs
    rw [h.sigchld] at hs
    cases hs
  · intro p hw
    rw [h.wait, Option.some.injEq] at hw
    subst hw
    rw [h.kids]
    exact hi.sig pid h.pending
  · intro p hs
    rw [h.sigchld] at hs
    cases hs

theorem Reaped.exits {k : Kid} (h : Reaped d d' k) (hp : Proc d) (hi : Exits d) : Exits d' := by
  apply exits_idle h.wait
  · intro l hl
    exact hi.alive l ((h.mem_iff hp l).1 hl).1
  · -- the signal is about another child
    intro p hs
    rw [h.sigchld] at hs
    obtain ⟨l, hl, rfl, hz⟩ := hi.sig p hs
    refine ⟨l, (h.mem_iff hp l).2 ⟨hl, ?_⟩, rfl, hz⟩
    intro hlk
    exact hi.apart _ hs (hlk ▸ h.waits)

theorem exits_step (hp : Proc d) (hi : Exits d) (h : exit_step d a = some d') : Exits d' := by
  obtain ⟨h, hstop, hcont⟩ := exit_step_spec h
  cases step_effect h with
  | same h =>
    refine ⟨?_, ?_, ?_, ?_⟩ <;> simp only [h.sigchld, h.kids, h.wait]
    · exact hi.alive
    · exact hi.sig
    · exact hi.wait
    · exact hi.apart
  | forked brid pid h => exact h.exits hi
  | fork_failed brid h _ => exact exits_idle h.wait (h.kids ▸ hi.alive) (by rw [h.sigchld, h.kids]; exact hi.sig)
  | chld pid h => exact h.exits hi
  | reaped k h => exact h.exits hp hi
  | no_child pid h =>
    obtain ⟨k, hk, hkp, -⟩ := hi.wait pid h.waits
    exact absurd hkp (h.none k hk)
  | changed k new h ha =>
    rcases ha with ⟨-, rfl⟩ | ha | ha
    · exact h.exits hp hi
    · exact absurd ha (hstop _)
    · exact absurd ha (hcont _)

/-! ## Children nobody waits for -/

/-- no entry is left from a failed fork, and of every zombie the daemon is told or was told -/
structure Calm (d : Daemon) : Prop where
  pid_ne : ∀ e ∈ d.in_ope, e.pid ≠ 0
  told : ∀ k ∈ d.kids, k.life = .zombie → d.sigchld = some k.pid ∨ waiting d = some k.pid

theorem calm_init (n : ℕ) : Calm (init n) := by
  refine ⟨?_, ?_⟩ <;> simp [init]

/-- a failed fork leaves an entry with pid 0 -/
theorem mvdown_failed (hatt : attempts d = true) (h : step d (.mvdown none) = some d') :
    ∃ e ∈ d'.in_ope, e.pid = 0 := by
  unfold attempts at hatt
  split at hatt
  · rename_i brid usage rest evs hpc
    simp only [Bool.and_eq_true, Bool.not_eq_true'] at hatt
    simp only [step, hpc, au_mvdown_run] at h
    rw [if_neg (by simpa [Option.isSome_iff_ne_none] using hatt.1.1), if_neg (by simp [hatt.1.2]),
      if_neg (by simp [hatt.2])] at h
    cases h
    exact ⟨_, List.mem_cons_self, rfl⟩
  · cases hatt

theorem not_quiet (h : ¬Quiet d a) :
    (a = .mvdown none ∧ attempts d = true) ∨ ∃ p q, a = .child_exit p ∧ d.sigchld = some q := by
  cases a with
  | mvdown fork =>
    cases fork with
    | none => exact Or.inl ⟨rfl, by simpa [Quiet] using h⟩
    | some pid => exact absurd trivial h
  | child_exit p =>
    obtain ⟨q, hq⟩ := Option.ne_none_iff_exists'.1 (show d.sigchld ≠ none from h)
    exact Or.inr ⟨p, q, rfl, hq⟩
  | _ => exact absurd trivial h

/-- after a failed fork, or an exit that no signal tells about, the daemon is not calm -/
theorem not_calm_of_not_quiet (hp : Proc d) (hi : Exits d) (hq : ¬Quiet d a) (h : step d a = some d') : ¬Calm d' := by
  intro hc
  rcases not_quiet hq with ⟨rfl, hatt⟩ | ⟨p, q, rfl, hs⟩
  · obtain ⟨e, he, he0⟩ := mvdown_failed hatt h
    exact hc.pid_ne e he he0
  · have hch : child_changes d p (fun l => decide (l ≠ .zombie)) .zombie = some d' := h
    obtain ⟨k, rfl, hk⟩ := child_changes_spec (by decide) hch
    obtain ⟨l, hl, hlk, hz⟩ := hk.self
    rcases hc.told l hl hz with ht | ht
    · -- the pending signal is that of another child
      rw [hk.sigchld, hs, Option.some_or, Option.some.injEq] at ht
      obtain ⟨m, hm, hmq, hmz⟩ := hi.sig q hs
      exact hk.not_zombie hp hm hmz (by rw [hmq, ht, hlk])
    · rw [hk.wait] at ht
      obtain ⟨m, hm, hmp, hmz⟩ := hi.wait _ ht
      exact hk.not_zombie hp hm hmz (hmp.trans hlk)

theorem Same.calm_iff (h : Same d d') : Calm d' ↔ Calm d := by
  constructor
  · intro hc
    refine ⟨h.in_ope ▸ hc.pid_ne, ?_⟩
    rw [← h.kids, ← h.sigchld, ← h.wait]
    exact hc.told
  · intro hc
    refine ⟨h.in_ope ▸ hc.pid_ne, ?_⟩
    rw [h.kids, h.sigchld, h.wait]
    exact hc.told

theorem Forked.calm_iff {brid : ℤ} {pid : ℕ} (h : Forked d d' brid pid) : Calm d' ↔ Calm d := by
  have hidle := waiting_mvdown h.pc
  refine ⟨fun hc => ⟨fun e he => hc.pid_ne e ?_, ?_⟩, fun hc => ⟨?_, ?_⟩⟩
  · rw [h.in_ope]
    exact List.mem_cons_of_mem _ he
  · intro k hk hz
    have hk' : k ∈ d'.kids := by
      rw [h.kids]
      exact List.mem_cons_of_mem _ hk
    rw [hidle, ← h.wait, ← h.sigchld]
    exact hc.told k hk' hz
  · intro e he
    rw [h.in_ope, List.mem_cons] at he
    rcases he with rfl | he
    · exact h.pid_ne
    · exact hc.pid_ne e he
  · intro k hk hz
    rw [h.kids, List.mem_cons] at hk
    rcases hk with rfl | hk
    · cases hz
    · rw [h.wait, ← hidle, h.sigchld]
      exact hc.told k hk hz

theorem GotChld.calm_iff {pid : ℕ} (h : GotChld d d' pid) (hp : Proc d) : Calm d' ↔ Calm d := by
  have hp0 := hp.sig_ne pid h.pending
  refine ⟨fun hc => ⟨?_, ?_⟩, fun hc => ⟨?_, ?_⟩⟩
  · intro e he he0
    -- an entry with pid 0 is not the one taken out
    have he' : e ∈ d'.in_ope := by
      rw [h.in_ope, hp.mem_erased hp0, he0]
      exact ⟨he, hp0.symm⟩
    exact hc.pid_ne e he' he0
  · intro k hk hz
    have ht := hc.told k (h.kids ▸ hk) hz
    rw [h.sigchld, h.wait] at ht
    rw [h.pending]
    exact ht.elim (fun ht => by cases ht) Or.inl
  · intro e he
    rw [h.in_ope, hp.mem_erased hp0] at he
    exact hc.pid_ne e he.1
  · intro k hk hz
    have ht := hc.told k (h.kids ▸ hk) hz
    rw [h.pending, h.idle] at ht
    rw [h.wait]
    exact ht.elim Or.inr fun ht => by cases ht

theorem Reaped.calm_iff {k : Kid} (h : Reaped d d' k) (hp : Proc d) : Calm d' ↔ Calm d := by
  refine ⟨fun hc => ⟨h.in_ope ▸ hc.pid_ne, ?_⟩, fun hc => ⟨h.in_ope ▸ hc.pid_ne, ?_⟩⟩
  · intro l hl hz
    by_cases hlk : l.pid = k.pid
    · exact Or.inr (by rw [h.waits, hlk])
    · have ht := hc.told l ((h.mem_iff hp l).2 ⟨hl, hlk⟩) hz
      rw [h.sigchld, h.wait] at ht
      exact ht.imp_right fun ht => by cases ht
  · intro l hl hz
    obtain ⟨hl, hlk⟩ := (h.mem_iff hp l).1 hl
    rw [h.sigchld]
    refine Or.inl ((hc.told l hl hz).resolve_right fun ht => hlk ?_)
    rw [h.waits, Option.some.injEq] at ht
    exact ht.symm

theorem Changed.calm_iff {k : Kid} (h : Changed d d' k .zombie) (hp : Proc d) (hs : d.sigchld = none) :
    Calm d' ↔ Calm d := by
  have hs' : d'.sigchld = some k.pid := by rw [h.sigchld, hs, Option.none_or]
  refine ⟨fun hc => ⟨h.in_ope ▸ hc.pid_ne, ?_⟩, fun hc => ⟨h.in_ope ▸ hc.pid_ne, ?_⟩⟩
  · intro m hm hz
    have hmk := h.not_zombie hp hm hz
    have hm' : m ∈ d'.kids := by
      rw [h.kids, List.mem_map]
      exact ⟨m, hm, if_neg hmk⟩
    have ht := hc.told m hm' hz
    rw [hs', Option.some.injEq, h.wait] at ht
    exact Or.inr (ht.resolve_left fun ht => hmk ht.symm)
  · intro l hl hz
    obtain ⟨m, hm, -, hmp, -, -, ⟨hmk, -⟩ | ⟨-, rfl⟩⟩ := h.kid hl
    · exact Or.inl (by rw [hs', ← hmp, hmk])
    · have ht := hc.told m hm hz
      rw [hs] at ht
      rw [h.wait]
      exact ht.imp_left fun ht => by cases ht

/-- a step keeps the daemon calm if it is quiet, and it is not calm again otherwise -/
theorem calm_step_iff (hp : Proc d) (hi : Exits d) (h : exit_step d a = some d') :
    Calm d' ↔ Calm d ∧ Quiet d a := by
  obtain ⟨h, hstop, hcont⟩ := exit_step_spec h
  by_cases hq : Quiet d a
  · rw [and_iff_left hq]
    cases step_effect h with
    | same h => exact h.calm_iff
    | forked brid pid h => exact h.calm_iff
    | fork_failed brid h ha =>
      rw [ha, Quiet, h.attempts] at hq
      cases hq
    | chld pid h => exact h.calm_iff hp
    | reaped k h => exact h.calm_iff hp
    | no_child pid h =>
      obtain ⟨k, hk, hkp, -⟩ := hi.wait pid h.waits
      exact absurd hkp (h.none k hk)
    | changed k new h ha =>
      rcases ha with ⟨rfl, rfl⟩ | ha | ha
      · exact h.calm_iff hp hq
      · exact absurd ha (hstop _)
      · exact absurd ha (hcont _)
  · exact iff_of_false (not_calm_of_not_quiet hp hi hq h) fun hc => hq hc.2

end Steps

/-- asleep with no signal pending, the daemon is calm exactly if in_ope holds running children only -/
theorem allRunning_iff {d : Daemon} (hp : Proc d) (hi : Exits d) (hpc : d.pc = .epoll) (hs : d.sigchld = none) :
    AllRunning d ↔ Calm d := by
  have hidle : waiting d = none := by rw [waiting, hpc]
  refine ⟨fun h => ⟨?_, ?_⟩, ?_⟩
  · intro e he he0
    obtain ⟨k, hk, hkp, -⟩ := h e he
    exact hp.pid_ne k hk (hkp.trans he0)
  · intro k hk hz
    -- the zombie has an entry, and no running child has its pid
    obtain ⟨l, hl, hlp, -, hrun⟩ := h _ (hp.listed_idle hidle hk)
    obtain rfl := List.inj_on_of_nodup_map hp.pid_nodup hl hk hlp
    rw [hz] at hrun
    cases hrun
  · intro h e he
    obtain ⟨k, hk, hkp, hkb⟩ := hp.entry e he (h.pid_ne e he)
    refine ⟨k, hk, hkp, hkb, ?_⟩
    cases hlife : k.life with
    | running => rfl
    | stopped => exact absurd hlife (hi.alive k hk)
    | zombie =>
      rcases h.told k hk hlife with ht | ht
      · rw [hs] at ht
        cases ht
      · rw [hidle] at ht
        cases ht

/-- **Blocked branches.** In every run of notifications, forks, exits and signals, whenever the daemon sleeps in
epoll_wait with no SIGCHLD pending: every entry of in_ope belongs to a running child exactly if, in the run so far, no
fork failed and no child exited while a SIGCHLD was pending. -/
theorem served_iff (n : ℕ) (acts : List Act) (d : Daemon) (h : exec exit_step (init n) acts = some d)
    (hpc : d.pc = .epoll) (hs : d.sigchld = none) : AllRunning d ↔ Along exit_step Quiet (init n) acts := by
  have hkeep : ∀ s a t, Proc s ∧ Exits s → exit_step s a = some t → Proc t ∧ Exits t :=
    fun s a t hi ht => ⟨proc_step hi.1 (exit_step_spec ht).1, exits_step hi.1 hi.2 ht⟩
  have hinit : Proc (init n) ∧ Exits (init n) := ⟨proc_init n, exits_init n⟩
  obtain ⟨hp, hi⟩ := exec_invariant exit_step (fun d => Proc d ∧ Exits d) hkeep hinit h
  calc AllRunning d ↔ Calm d := allRunning_iff hp hi hpc hs
    _ ↔ Calm (init n) ∧ Along exit_step Quiet (init n) acts :=
        exec_iff_along exit_step _ Calm Quiet hkeep (fun s a t hi => calm_step_iff hi.1 hi.2) hinit h
    _ ↔ Along exit_step Quiet (init n) acts := and_iff_right (calm_init n)

/-- two children; the first one exits and is waited for, the second one runs -/
def oneExits : List Act :=
  [.loop, .epoll (.events [.fhsm]), .fhsm, .read_fhsm (.entries [(0, true), (1, true)]), .mvdown (some 10),
    .mvdown (some 11), .next, .next, .loop, .child_exit 10, .epoll (.events [.signal]), .signal .chld, .waitpid, .next,
    .loop]

/-- where `oneExits` ends -/
def oneExitsEnd : Daemon :=
  ⟨.epoll, false, [⟨1, 11⟩], some 2, some 0, [.NONE], none, [⟨1, 11, 1, some 0, .running⟩], 2, [0], false, false, [], []⟩

theorem served_iff_oneExits :
    exec exit_step (init 2) oneExits = some oneExitsEnd ∧
      (AllRunning oneExitsEnd ↔ Along exit_step Quiet (init 2) oneExits) ∧ AllRunning oneExitsEnd :=
  ⟨by decide, served_iff 2 oneExits oneExitsEnd (by decide) rfl rfl, by decide⟩

/-- two children exit before the signal is read -/
def bothExit : List Act :=
  [.loop, .epoll (.events [.fhsm]), .fhsm, .read_fhsm (.entries [(0, true), (1, true)]), .mvdown (some 10),
    .mvdown (some 11), .next, .next, .loop, .child_exit 10, .child_exit 11, .epoll (.events [.signal]), .signal .chld,
    .waitpid, .next, .loop]

/-- the second child is a zombie nobody waits for, and branch 1 stays in operation -/
def bothExitEnd : Daemon :=
  ⟨.epoll, false, [⟨1, 11⟩], some 2, some 0, [.NONE], none, [⟨1, 11, 1, some 0, .zombie⟩], 2, [0], false, false, [], []⟩

/-- **A branch stays blocked.** -/
theorem branch_blocked :
    ¬∀ (n : ℕ) (acts : List Act) (d : Daemon), exec exit_step (init n) acts = some d → d.pc = .epoll →
      d.sigchld = none → AllRunning d := by
  intro h
  have hall := h 2 bothExit bothExitEnd (by decide) rfl rfl
  revert hall
  decide

end AufsUtil.Fhsm
