/-
The daemon's children over whole runs of the event loop (`fhsm/event.c`, `fhsm/mvdown.c`).

- `children_life_cycle`: there are never two children for one branch, none is forked after a stop request, and all were
  waited for when the loop returns. The invariant (`Proc`) links the entries of in_ope, the children and the child that
  the daemon is waiting for; it survives failed forks, merged signals and signals of stopped children.
- `ctl_run`: where the loop is and what it knows then; a notification is handled only without a stop request.
-/
import Mathlib.Tactic
import AufsUtil.Lib.Runs
import AufsUtil.Lib.Keyed
import AufsUtil.Fhsm.Daemon

namespace AufsUtil.Fhsm

open AufsUtil.Runs AufsUtil.Keyed

/-! ## Entries, children and the one waited for -/

/-- the pids of the children are distinct; every branch is in in_ope once; an entry with a pid belongs to a child; a
child has its entry, or is the one waited for; that one has none, and its branch has none -/
structure Proc (d : Daemon) : Prop where
  pid_ne : ∀ k ∈ d.kids, k.pid ≠ 0
  pid_nodup : (d.kids.map Kid.pid).Nodup
  brid_nodup : (d.in_ope.map InOpe.brid).Nodup
  entry : ∀ e ∈ d.in_ope, e.pid ≠ 0 → ∃ k ∈ d.kids, k.pid = e.pid ∧ k.brid = e.brid
  listed : ∀ k ∈ d.kids, ⟨k.brid, k.pid⟩ ∈ d.in_ope ∨ waiting d = some k.pid
  waits : ∀ p, waiting d = some p → (∀ e ∈ d.in_ope, e.pid ≠ p) ∧
    ∀ k ∈ d.kids, k.pid = p → ∀ e ∈ d.in_ope, e.brid ≠ k.brid
  sig_ne : ∀ p, d.sigchld = some p → p ≠ 0
  all : ∀ i < d.forked, i ∈ d.waited ∨ ∃ k ∈ d.kids, k.no = i

theorem proc_init (n : ℕ) : Proc (init n) := by
  refine ⟨?_, ?_, ?_, ?_, ?_, ?_, ?_, ?_⟩ <;> simp [init, waiting]

section Proc

variable {d d' : Daemon}

/-- a pid other than 0 is in in_ope once -/
theorem Proc.entry_unique (h : Proc d) {e e' : InOpe} (he : e ∈ d.in_ope) (he' : e' ∈ d.in_ope)
    (hp : e.pid = e'.pid) (hne : e.pid ≠ 0) : e = e' := by
  obtain ⟨k, hk, hkp, hkb⟩ := h.entry e he hne
  obtain ⟨k', hk', hkp', hkb'⟩ := h.entry e' he' (hp ▸ hne)
  obtain rfl := List.inj_on_of_nodup_map h.pid_nodup hk hk' (by rw [hkp, hkp', hp])
  exact List.inj_on_of_nodup_map h.brid_nodup he he' (by rw [← hkb, ← hkb'])

/-- the entry that a SIGCHLD takes out was the only one with its pid -/
theorem Proc.mem_erased (h : Proc d) {p : ℕ} (hp : p ≠ 0) {e : InOpe} :
    e ∈ d.in_ope.eraseP (fun e => e.pid = p) ↔ e ∈ d.in_ope ∧ e.pid ≠ p := by
  refine ⟨fun he => ⟨List.mem_of_mem_eraseP he, ?_⟩, ?_⟩
  · intro hep
    -- two entries with this pid, at different places, would be the same one
    have hmem := List.mem_of_mem_eraseP he
    obtain ⟨a, l₁, l₂, -, hap, heq, herase⟩ := List.exists_of_eraseP (p := fun e : InOpe => decide (e.pid = p)) hmem
      (by simpa using hep)
    have hae : a = e := h.entry_unique (heq ▸ by simp) hmem (by rw [hep]; simpa using hap) (by simp at hap; omega)
    have hnd := h.brid_nodup
    rw [heq, List.map_append, List.map_cons, List.nodup_middle, List.nodup_cons] at hnd
    rw [herase] at he
    exact hnd.1 (by rw [hae, ← List.map_append]; exact List.mem_map_of_mem he)
  · rintro ⟨he, hne⟩
    rwa [List.mem_eraseP_of_neg (by simpa using hne)]

/-- **No two children for one branch.** -/
theorem Proc.brids (h : Proc d) : (d.kids.map Kid.brid).Nodup := by
  refine List.Nodup.map_on ?_ h.pid_nodup.of_map
  intro k hk l hl hkl
  rcases h.listed k hk with hk' | hk' <;> rcases h.listed l hl with hl' | hl'
  · have heq := List.inj_on_of_nodup_map h.brid_nodup hk' hl' hkl
    exact List.inj_on_of_nodup_map h.pid_nodup hk hl (InOpe.mk.inj heq).2
  · exact absurd hkl ((h.waits _ hl').2 l hl rfl _ hk')
  · exact absurd hkl.symm ((h.waits _ hk').2 k hk rfl _ hl')
  · exact List.inj_on_of_nodup_map h.pid_nodup hk hl (Option.some.inj (hk'.symm.trans hl'))

/-- what the invariant depends on -/
theorem Same.proc (h : Same d d') (hi : Proc d) : Proc d' := by
  refine ⟨?_, ?_, ?_, ?_, ?_, ?_, ?_, ?_⟩ <;> simp only [h.in_ope, h.sigchld, h.kids, h.forked, h.waited, h.wait]
  · exact hi.pid_ne
  · exact hi.pid_nodup
  · exact hi.brid_nodup
  · exact hi.entry
  · exact hi.listed
  · exact hi.waits
  · exact hi.sig_ne
  · exact hi.all

theorem waiting_mvdown (h : ∃ es evs, d.pc = .mvdown es evs) : waiting d = none := by
  obtain ⟨es, evs, hpc⟩ := h
  rw [waiting, hpc]

/-- while the daemon does not wait, every child has its entry -/
theorem Proc.listed_idle (hi : Proc d) (hidle : waiting d = none) {k : Kid} (hk : k ∈ d.kids) :
    ⟨k.brid, k.pid⟩ ∈ d.in_ope := by
  rcases hi.listed k hk with hl | hl
  · exact hl
  · rw [hidle] at hl
    cases hl

theorem new_brid_nodup (hi : Proc d) {brid : ℤ} (hnew : ∀ e ∈ d.in_ope, e.brid ≠ brid) (pid : ℕ) :
    ((⟨brid, pid⟩ :: d.in_ope : List InOpe).map InOpe.brid).Nodup := by
  rw [List.map_cons, List.nodup_cons]
  refine ⟨?_, hi.brid_nodup⟩
  intro hm
  obtain ⟨e, he, heb⟩ := List.mem_map.1 hm
  exact hnew e he heb

theorem Forked.proc {brid : ℤ} {pid : ℕ} (h : Forked d d' brid pid) (hi : Proc d) : Proc d' := by
  refine ⟨?_, ?_, h.in_ope ▸ new_brid_nodup hi h.new pid, ?_, ?_, ?_, h.sigchld ▸ hi.sig_ne, ?_⟩
  · intro k hk
    rw [h.kids, List.mem_cons] at hk
    rcases hk with rfl | hk
    · exact h.pid_ne
    · exact hi.pid_ne k hk
  · rw [h.kids, List.map_cons, List.nodup_cons]
    refine ⟨fun hm => ?_, hi.pid_nodup⟩
    obtain ⟨k, hk, hkp⟩ := List.mem_map.1 hm
    exact h.free k hk hkp
  · intro e he hne
    rw [h.in_ope, List.mem_cons] at he
    rw [h.kids]
    rcases he with rfl | he
    · exact ⟨_, List.mem_cons_self, rfl, rfl⟩
    · obtain ⟨k, hk, hke⟩ := hi.entry e he hne
      exact ⟨k, List.mem_cons_of_mem _ hk, hke⟩
  · intro k hk
    rw [h.kids, List.mem_cons] at hk
    rw [h.in_ope]
    rcases hk with rfl | hk
    · exact Or.inl List.mem_cons_self
    · exact Or.inl (List.mem_cons_of_mem _ (hi.listed_idle (waiting_mvdown h.pc) hk))
  · intro p hp
    rw [h.wait] at hp
    cases hp
  · intro i hlt
    rw [h.forked] at hlt
    rw [h.waited, h.kids]
    rcases Nat.lt_succ_iff_lt_or_eq.1 hlt with hlt | rfl
    · rcases hi.all i hlt with hw | ⟨k, hk, hki⟩
      · exact Or.inl hw
      · exact Or.inr ⟨k, List.mem_cons_of_mem _ hk, hki⟩
    · exact Or.inr ⟨_, List.mem_cons_self, rfl⟩

theorem ForkFailed.proc {brid : ℤ} (h : ForkFailed d d' brid) (hi : Proc d) : Proc d' := by
  refine ⟨h.kids ▸ hi.pid_ne, h.kids ▸ hi.pid_nodup, h.in_ope ▸ new_brid_nodup hi h.new 0, ?_,
    ?_, ?_, h.sigchld ▸ hi.sig_ne, by rw [h.forked, h.waited, h.kids]; exact hi.all⟩
  · intro e he hne
    rw [h.in_ope, List.mem_cons] at he
    rw [h.kids]
    rcases he with rfl | he
    · exact absurd rfl hne
    · exact hi.entry e he hne
  · intro k hk
    rw [h.kids] at hk
    rw [h.in_ope]
    exact Or.inl (List.mem_cons_of_mem _ (hi.listed_idle (waiting_mvdown h.pc) hk))
  · intro p hp
    rw [h.wait] at hp
    cases hp

theorem GotChld.proc {pid : ℕ} (h : GotChld d d' pid) (hi : Proc d) : Proc d' := by
  have hp0 := hi.sig_ne pid h.pending
  refine ⟨h.kids ▸ hi.pid_ne, h.kids ▸ hi.pid_nodup, ?_, ?_, ?_, ?_,
    ?_, by rw [h.forked, h.waited, h.kids]; exact hi.all⟩
  · rw [h.in_ope]
    exact hi.brid_nodup.sublist (List.eraseP_sublist.map InOpe.brid)
  · intro e he hne
    rw [h.in_ope] at he
    rw [h.kids]
    exact hi.entry e (List.mem_of_mem_eraseP he) hne
  · intro k hk
    rw [h.kids] at hk
    rw [h.in_ope, h.wait, hi.mem_erased hp0]
    by_cases hkp : k.pid = pid
    · exact Or.inr (by rw [hkp])
    · exact Or.inl ⟨hi.listed_idle h.idle hk, hkp⟩
  · intro p hp
    rw [h.wait, Option.some.injEq] at hp
    subst hp
    rw [h.in_ope, h.kids]
    refine ⟨fun e he => ((hi.mem_erased hp0).1 he).2, fun k hk hkp e he heb => ?_⟩
    -- its entry was the one taken out, no other has the branch
    obtain ⟨he, hep⟩ := (hi.mem_erased hp0).1 he
    have heq := List.inj_on_of_nodup_map hi.brid_nodup he (hi.listed_idle h.idle hk) heb
    exact hep (by rw [heq]; exact hkp)
  · intro p hp
    rw [h.sigchld] at hp
    cases hp

theorem Reaped.mem_iff {k : Kid} (h : Reaped d d' k) (hi : Proc d) (l : Kid) :
    l ∈ d'.kids ↔ l ∈ d.kids ∧ l.pid ≠ k.pid := by
  rw [h.kids]
  exact mem_eraseP_key hi.pid_nodup

theorem Reaped.proc {k : Kid} (h : Reaped d d' k) (hi : Proc d) : Proc d' := by
  refine ⟨fun l hl => hi.pid_ne l ((h.mem_iff hi l).1 hl).1, ?_, h.in_ope ▸ hi.brid_nodup, ?_,
    ?_, ?_, h.sigchld ▸ hi.sig_ne, ?_⟩
  · rw [h.kids]
    exact hi.pid_nodup.sublist (List.eraseP_sublist.map Kid.pid)
  · intro e he hne
    rw [h.in_ope] at he
    obtain ⟨l, hl, hlp, hlb⟩ := hi.entry e he hne
    exact ⟨l, (h.mem_iff hi l).2 ⟨hl, by rw [hlp]; exact (hi.waits _ h.waits).1 e he⟩, hlp, hlb⟩
  · intro l hl
    obtain ⟨hl, hlp⟩ := (h.mem_iff hi l).1 hl
    rw [h.in_ope]
    rcases hi.listed l hl with hlist | hwl
    · exact Or.inl hlist
    · exact absurd (Option.some.inj (hwl.symm.trans h.waits)) hlp
  · intro p hp
    rw [h.wait] at hp
    cases hp
  · intro i hlt
    rw [h.forked] at hlt
    rw [h.waited]
    rcases hi.all i hlt with hw | ⟨l, hl, hli⟩
    · exact Or.inl (List.mem_cons_of_mem _ hw)
    · by_cases hlp : l.pid = k.pid
      · obtain rfl := List.inj_on_of_nodup_map hi.pid_nodup hl h.mem hlp
        exact Or.inl (hli ▸ List.mem_cons_self)
      · exact Or.inr ⟨l, (h.mem_iff hi l).2 ⟨hl, hlp⟩, hli⟩

theorem NoChild.proc {pid : ℕ} (h : NoChild d d' pid) (hi : Proc d) : Proc d' := by
  refine ⟨h.kids ▸ hi.pid_ne, h.kids ▸ hi.pid_nodup, h.in_ope ▸ hi.brid_nodup, by rw [h.in_ope, h.kids]; exact hi.entry,
    ?_, ?_, h.sigchld ▸ hi.sig_ne, by rw [h.forked, h.waited, h.kids]; exact hi.all⟩
  · intro k hk
    rw [h.kids] at hk
    rw [h.in_ope]
    rcases hi.listed k hk with hl | hl
    · exact Or.inl hl
    · exact absurd (Option.some.inj (hl.symm.trans h.waits)) (h.none k hk)
  · intro p hp
    rw [h.wait] at hp
    cases hp

/-- the children after a change, up to the state of one -/
theorem Changed.kid {k : Kid} {new : Life} (h : Changed d d' k new) {l : Kid} (hl : l ∈ d'.kids) :
    ∃ m ∈ d.kids, m.no = l.no ∧ m.pid = l.pid ∧ m.brid = l.brid ∧ m.map = l.map ∧
      ((m.pid = k.pid ∧ l.life = new) ∨ (m.pid ≠ k.pid ∧ m = l)) := by
  rw [h.kids, List.mem_map] at hl
  obtain ⟨m, hm, rfl⟩ := hl
  by_cases hmk : m.pid = k.pid
  · rw [if_pos hmk]
    exact ⟨m, hm, rfl, rfl, rfl, rfl, Or.inl ⟨hmk, rfl⟩⟩
  · rw [if_neg hmk]
    exact ⟨m, hm, rfl, rfl, rfl, rfl, Or.inr ⟨hmk, rfl⟩⟩

theorem Changed.kid' {k : Kid} {new : Life} (h : Changed d d' k new) {m : Kid} (hm : m ∈ d.kids) :
    ∃ l ∈ d'.kids, l.no = m.no ∧ l.pid = m.pid ∧ l.brid = m.brid := by
  refine ⟨if m.pid = k.pid then { m with life := new } else m, ?_, ?_⟩
  · rw [h.kids]
    exact List.mem_map_of_mem hm
  · split_ifs <;> exact ⟨rfl, rfl, rfl⟩

theorem Changed.proc {k : Kid} {new : Life} (h : Changed d d' k new) (hi : Proc d) : Proc d' := by
  have hpids : d'.kids.map Kid.pid = d.kids.map Kid.pid := by
    rw [h.kids, List.map_map]
    apply List.map_congr_left
    intro l _
    rw [Function.comp_apply]
    split_ifs <;> rfl
  refine ⟨?_, hpids ▸ hi.pid_nodup, h.in_ope ▸ hi.brid_nodup, ?_, ?_, ?_, ?_, ?_⟩
  · intro l hl
    obtain ⟨m, hm, -, hmp, -⟩ := h.kid hl
    exact hmp ▸ hi.pid_ne m hm
  · intro e he hne
    rw [h.in_ope] at he
    obtain ⟨m, hm, hmp, hmb⟩ := hi.entry e he hne
    obtain ⟨l, hl, -, hlp, hlb⟩ := h.kid' hm
    exact ⟨l, hl, hlp.trans hmp, hlb.trans hmb⟩
  · intro l hl
    obtain ⟨m, hm, -, hmp, hmb, -⟩ := h.kid hl
    rw [h.in_ope, h.wait, ← hmp, ← hmb]
    exact hi.listed m hm
  · intro p hp
    rw [h.wait] at hp
    rw [h.in_ope]
    refine ⟨(hi.waits p hp).1, fun l hl hlp => ?_⟩
    obtain ⟨m, hm, -, hmp, hmb, -⟩ := h.kid hl
    rw [← hmb]
    exact (hi.waits p hp).2 m hm (hmp.trans hlp)
  · intro p hp
    rw [h.sigchld] at hp
    cases hs : d.sigchld with
    | none =>
      rw [hs, Option.none_or, Option.some.injEq] at hp
      exact hp ▸ hi.pid_ne k h.mem
    | some q =>
      rw [hs, Option.some_or, Option.some.injEq] at hp
      exact hp ▸ hi.sig_ne q hs
  · intro i hlt
    rw [h.forked] at hlt
    rw [h.waited]
    rcases hi.all i hlt with hw | ⟨m, hm, hmi⟩
    · exact Or.inl hw
    · obtain ⟨l, hl, hln, -⟩ := h.kid' hm
      exact Or.inr ⟨l, hl, hln.trans hmi⟩

/-- every step keeps it -/
theorem proc_step {a : Act} (hi : Proc d) (h : step d a = some d') : Proc d' := by
  cases step_effect h with
  | same h => exact h.proc hi
  | forked brid pid h => exact h.proc hi
  | fork_failed brid h _ => exact h.proc hi
  | chld pid h => exact h.proc hi
  | reaped k h => exact h.proc hi
  | no_child pid h => exact h.proc hi
  | changed k new h _ => exact h.proc hi

end Proc

theorem proc_run (n : ℕ) {acts : List Act} {d : Daemon} (h : exec step (init n) acts = some d) : Proc d :=
  exec_invariant step Proc (fun _ _ _ => proc_step) (proc_init n) h

/-! ## Where the loop is -/

/-- a stop request sets `done`; a notification is handled only without it, and with a mapping; the loop returns with an
empty in_ope -/
structure Ctl (d : Daemon) : Prop where
  stop : d.stopped = true → d.done = true
  read : ∀ evs, d.pc = .read_fhsm evs → d.done = false
  mvdown : ∀ es evs, d.pc = .mvdown es evs → d.done = false ∧ d.comm.isSome
  ret : d.pc = .returned → d.in_ope = []

theorem ctl_init (n : ℕ) : Ctl (init n) := by
  refine ⟨?_, ?_, ?_, ?_⟩ <;> simp [init]

/-- what a step keeps: the invariant, and a stop request -/
structure CtlStep (d d' : Daemon) : Prop where
  ctl : Ctl d'
  stopped : d.stopped = true → d'.stopped = true

section Ctl

variable {d d' : Daemon} {a : Act}

theorem ctl_elsewhere (hstop : d.stopped = true → d.done = true) (hpc : d.pc.elsewhere = true) : Ctl d := by
  refine ⟨hstop, fun evs h => ?_, fun es evs h => ?_, fun h => ?_⟩ <;> rw [h] at hpc <;> cases hpc

theorem ctl_step_elsewhere (hi : Ctl d) (hdone : d'.done = d.done) (hstopped : d'.stopped = d.stopped)
    (hpc : d'.pc.elsewhere = true) : CtlStep d d' :=
  ⟨ctl_elsewhere (by rw [hdone, hstopped]; exact hi.stop) hpc, by rw [hstopped]; exact id⟩

/-- the step sets `done` -/
theorem ctl_step_done (hdone : d'.done = true) (hstopped : d.stopped = true → d'.stopped = true)
    (hpc : d'.pc.elsewhere = true) : CtlStep d d' :=
  ⟨ctl_elsewhere (fun _ => hdone) hpc, hstopped⟩

/-- a child did something, the daemon did not -/
theorem ctl_step_child (hi : Ctl d) (hpc : d'.pc = d.pc) (hdone : d'.done = d.done) (hstopped : d'.stopped = d.stopped)
    (hcomm : d'.comm = d.comm) (hin : d'.in_ope = d.in_ope) : CtlStep d d' := by
  refine ⟨⟨?_, ?_, ?_, ?_⟩, by rw [hstopped]; exact id⟩
  · rw [hdone, hstopped]
    exact hi.stop
  · rw [hpc, hdone]
    exact hi.read
  · rw [hpc, hdone, hcomm]
    exact hi.mvdown
  · rw [hpc, hin]
    exact hi.ret

theorem load_ctl {r : LoadRes} {err : ℤ} (h : au_fhsmd_load d r = some (err, d')) :
    d'.done = d.done ∧ d'.stopped = d.stopped := by
  unfold au_fhsmd_load at h
  split at h
  · cases h
    exact ⟨rfl, rfl⟩
  · dsimp only at h
    split_ifs at h
    · cases h
      exact ⟨rfl, rfl⟩
    · cases h
      exact ⟨rfl, rfl⟩
    · split at h <;> cases h <;> exact ⟨rfl, rfl⟩

theorem handle_sig_ctl {evs : List Ev} {r : SigRes} (hi : Ctl d) (h : handle_sig d evs r = some d') : CtlStep d d' := by
  cases r with
  | chld =>
    simp only [handle_sig] at h
    split at h
    · cases h
    · cases h
      exact ctl_step_elsewhere hi rfl rfl rfl
  | error =>
    cases h
    exact ctl_step_done rfl id rfl
  | term =>
    cases h
    exact ctl_step_done rfl (fun _ => rfl) rfl
  | _ =>
    cases h
    exact ctl_step_elsewhere hi rfl rfl rfl

theorem handle_msg_ctl (hi : Ctl d) (evs : List Ev) (r : MsgRes) : CtlStep d (handle_msg d evs r) := by
  cases r with
  | read r =>
    simp only [handle_msg]
    split
    · exact ctl_step_elsewhere hi rfl rfl rfl
    · rename_i hl
      obtain ⟨hd, hs⟩ := load_ctl hl
      exact ctl_step_elsewhere hi hd hs rfl
  | exit =>
    simp only [handle_msg]
    split
    · exact ctl_step_elsewhere hi rfl rfl rfl
    · exact ctl_step_done rfl (fun _ => rfl) rfl
  | _ => exact ctl_step_elsewhere hi rfl rfl rfl

theorem handle_fhsm_ctl (hi : Ctl d) {evs : List Ev} (hpc : d.pc = .read_fhsm evs) (r : FhsmRes) :
    CtlStep d (handle_fhsm d evs r) := by
  have hdone := hi.read evs hpc
  unfold handle_fhsm
  split_ifs with hcomm
  · exact ctl_step_elsewhere hi rfl rfl rfl
  · cases r with
    | zero => exact ctl_step_elsewhere hi rfl rfl rfl
    | error => exact ctl_step_done rfl id rfl
    | entries es =>
      refine ⟨⟨hi.stop, by simp, fun _ _ _ => ⟨hdone, ?_⟩, by simp⟩, id⟩
      simpa [Option.isSome_iff_ne_none] using hcomm
    | emsgsize r =>
      dsimp only
      split
      · exact ctl_step_elsewhere hi rfl rfl rfl
      · rename_i hl
        obtain ⟨hd, hs⟩ := load_ctl hl
        split_ifs
        · -- the notification is read again, still without a stop request
          refine ⟨⟨?_, fun _ _ => hd.trans hdone, by simp, by simp⟩, by rw [hs]; exact id⟩
          dsimp only
          rw [hd, hs]
          exact hi.stop
        · exact ctl_step_done rfl (by rw [hs]; exact id) rfl

theorem au_mvdown_run_ctl {brid : ℤ} {usage : Bool} {rest : List (ℤ × Bool)} {evs : List Ev} {fork : Option ℕ}
    (hi : Ctl d) (hpc : d.pc = .mvdown ((brid, usage) :: rest) evs)
    (h : au_mvdown_run d brid usage rest evs fork = some d') : CtlStep d d' := by
  have hmv := hi.mvdown _ _ hpc
  unfold au_mvdown_run at h
  split_ifs at h
  · cases h
    exact ctl_step_elsewhere hi rfl rfl rfl
  · cases h
    exact ⟨⟨hi.stop, by simp, fun _ _ _ => hmv, by simp⟩, id⟩
  · cases h
    exact ⟨⟨hi.stop, by simp, fun _ _ _ => hmv, by simp⟩, id⟩
  · cases fork with
    | none =>
      cases h
      exact ctl_step_done rfl id rfl
    | some pid =>
      dsimp only at h
      split_ifs at h
      cases h
      exact ⟨⟨hi.stop, by simp, fun _ _ _ => hmv, by simp⟩, id⟩

theorem step_ctl (hi : Ctl d) (h : step d a = some d') : CtlStep d d' := by
  cases step_cases h with
  | loop hpc h =>
    subst h
    by_cases hgo : (!d.done || !d.in_ope.isEmpty) = true
    · exact ctl_step_elsewhere hi rfl rfl (by rw [if_pos hgo]; rfl)
    · rw [if_neg hgo]
      refine ⟨⟨hi.stop, by simp, by simp, fun _ => ?_⟩, id⟩
      simp only [Bool.or_eq_true, Bool.not_eq_true', not_or, Bool.not_eq_false, List.isEmpty_iff] at hgo
      exact hgo.2
  | moved pc _ _ hpc h =>
    subst h
    exact ctl_step_elsewhere hi rfl rfl hpc
  | signal evs r _ h => exact handle_sig_ctl hi h
  | waitpid pid evs _ h =>
    unfold waitpid at h
    split at h
    · cases h
      exact ctl_step_elsewhere hi rfl rfl rfl
    · split_ifs at h
      cases h
      exact ctl_step_elsewhere hi rfl rfl rfl
  | msg evs r _ h =>
    subst h
    exact handle_msg_ctl hi evs r
  | fhsm evs hpc h =>
    subst h
    by_cases hd : d.done = true
    · exact ctl_step_elsewhere hi rfl rfl (by rw [if_pos hd]; rfl)
    · rw [if_neg hd]
      exact ⟨⟨hi.stop, fun _ _ => by simpa using hd, by simp, by simp⟩, id⟩
  | read_fhsm evs r hpc h =>
    subst h
    exact handle_fhsm_ctl hi hpc r
  | mvdown brid usage rest evs fork _ hpc h => exact au_mvdown_run_ctl hi hpc h
  | child pid old new _ _ h =>
    unfold child_changes at h
    split at h
    · cases h
    · split_ifs at h
      cases h
      exact ctl_step_child hi rfl rfl rfl rfl rfl
  | child_loop pid h =>
    unfold child_loop at h
    split at h
    · cases h
    · split_ifs at h
      cases h
      exact ctl_step_child hi rfl rfl rfl rfl rfl

end Ctl

/-- no child is forked once a stop request was handled -/
theorem step_no_fork {d d' : Daemon} {a : Act} (hi : Ctl d) (h : step d a = some d') (hs : d.stopped = true) :
    d'.forked = d.forked := by
  cases step_effect h with
  | forked brid pid h =>
    obtain ⟨es, evs, hpc⟩ := h.pc
    have hdone := (hi.mvdown es evs hpc).1
    rw [hi.stop hs] at hdone
    cases hdone
  | same h => exact h.forked
  | fork_failed brid h _ => exact h.forked
  | chld pid h => exact h.forked
  | reaped k h => exact h.forked
  | no_child pid h => exact h.forked
  | changed k new h _ => exact h.forked

theorem ctl_run (n : ℕ) {acts : List Act} {d : Daemon} (h : exec step (init n) acts = some d) : Ctl d :=
  exec_invariant step Ctl (fun _ _ _ hi hs => (step_ctl hi hs).ctl) (ctl_init n) h

/-- **Life cycle of the children.** In every run: (a) no two children that were not waited for belong to one branch;
(b) after an EXIT message or a terminating signal was handled no child is forked; (c) when the loop returns, every child
ever forked was waited for. -/
theorem children_life_cycle (n : ℕ) (acts : List Act) (d : Daemon) (h : exec step (init n) acts = some d) :
    (d.kids.map Kid.brid).Nodup ∧
      (∀ pre post t, acts = pre ++ post → exec step (init n) pre = some t → t.stopped = true → d.forked = t.forked) ∧
      (d.pc = .returned → d.kids = [] ∧ ∀ i < d.forked, i ∈ d.waited) := by
  have hp := proc_run n h
  refine ⟨hp.brids, ?_, ?_⟩
  · intro pre post t hacts ht hs
    rw [hacts] at h
    obtain ⟨t', ht', hd⟩ := (exec_append step).1 h
    obtain rfl := Option.some.inj (ht.symm.trans ht')
    have hrel := exec_relation step Ctl (fun s u => s.stopped = true → u.stopped = true ∧ u.forked = s.forked)
      (fun s hs => ⟨hs, rfl⟩) (fun s t u hst htu hs => ⟨(htu (hst hs).1).1, (htu (hst hs).1).2.trans (hst hs).2⟩)
      (fun s a u hi hstep => ⟨(step_ctl hi hstep).ctl, fun hs => ⟨(step_ctl hi hstep).stopped hs, step_no_fork hi hstep hs⟩⟩)
      (ctl_run n ht) hd
    exact (hrel hs).2
  · intro hret
    have hin := (ctl_run n h).ret hret
    have hkids : d.kids = [] := by
      apply List.eq_nil_iff_forall_not_mem.2
      intro k hk
      have hl := hp.listed_idle (by rw [waiting, hret]) hk
      rw [hin] at hl
      simp at hl
    refine ⟨hkids, fun i hlt => ?_⟩
    rcases hp.all i hlt with hw | ⟨k, hk, -⟩
    · exact hw
    · rw [hkids] at hk
      simp at hk

/-- branches 0 and 1 get a child each; the first one stops, then exits while the daemon waits for it, so its pid comes
once more; then the controller asks for a stop, and the second child exits -/
def twoChildren : List Act :=
  [.loop, .epoll (.events [.fhsm]), .fhsm, .read_fhsm (.entries [(0, true), (1, true), (0, true)]), .mvdown (some 10),
    .mvdown (some 11), .mvdown none, .next, .child_stop 10, .next,
    .loop, .epoll (.events [.signal]), .signal .chld, .child_exit 10, .waitpid, .next,
    .loop, .epoll (.events [.signal, .msg]), .signal .chld, .waitpid, .msg .exit, .next,
    .loop, .child_exit 11, .epoll (.events [.signal]), .signal .chld, .waitpid, .next, .loop]

/-- where `twoChildren` ends -/
def twoChildrenEnd : Daemon :=
  ⟨.returned, true, [], some 2, some 0, [.EXIT], none, [], 2, [1, 0], true, true, [], []⟩

theorem children_life_cycle_two :
    exec step (init 2) twoChildren = some twoChildrenEnd ∧ (twoChildrenEnd.kids.map Kid.brid).Nodup ∧
      (∀ pre post t, twoChildren = pre ++ post → exec step (init 2) pre = some t → t.stopped = true →
        twoChildrenEnd.forked = t.forked) ∧
      (twoChildrenEnd.pc = .returned → twoChildrenEnd.kids = [] ∧ ∀ i < 2, i ∈ twoChildrenEnd.waited) :=
  ⟨by decide, children_life_cycle 2 twoChildren twoChildrenEnd (by decide)⟩

end AufsUtil.Fhsm
