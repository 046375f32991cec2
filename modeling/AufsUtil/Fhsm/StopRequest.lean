/-
Whether a stop request reaches the children (`fhsm/event.c` handle_msg, au_fhsmd_load; `fhsm/mvdown.c` mvdown_child).

handle_msg writes EXIT into the mapping that the daemon uses. A child looks at the mapping it inherited. A READ message,
or an EMSGSIZE from aufs, makes au_fhsmd_load unmap the one and map a new one, into which it copies the msg: what is
copied is the past, an EXIT that comes later is never seen by the children forked before.

`exit_reaches_iff`: an EXIT message reaches every child alive exactly if for none of them there was a new mapping since
it was forked, and there is a mapping at all. The invariant (`Shm`) numbers the mappings: a child has the one whose
number is the count of the reloads before its fork.
-/
import Mathlib.Tactic
import AufsUtil.Lib.Runs
import AufsUtil.Fhsm.Daemon
import AufsUtil.Fhsm.Children

namespace AufsUtil.Fhsm

open AufsUtil.Runs

/-! ## What a step does to the mapping -/

/-- the mappings stay; the daemon may lose the one it uses -/
structure SameMsgs (d d' : Daemon) : Prop where
  comm : d'.comm = d.comm ∨ d'.comm = none
  msgs : d'.msgs = d.msgs
  reloads : d'.reloads = d.reloads
  exited : d'.exited = d.exited

/-- a new mapping, with the msg of the old one -/
structure Reloaded (d d' : Daemon) (m : Msg) : Prop where
  comm : d'.comm = some d.msgs.length
  msgs : d'.msgs = d.msgs ++ [m]
  reloads : d'.reloads = d.forked :: d.reloads
  exited : d'.exited = d.exited
  copied : m = .EXIT → .EXIT ∈ d.msgs
  kids : d'.kids = d.kids
  forked : d'.forked = d.forked

/-- EXIT is written into the mapping in use -/
structure Stopped (d d' : Daemon) (c : ℕ) : Prop where
  used : d.comm = some c
  comm : d'.comm = some c
  msgs : d'.msgs = d.msgs.set c .EXIT
  reloads : d'.reloads = d.reloads
  exited : d'.exited = true

inductive CommEffect (d d' : Daemon) : Prop where
  | same (h : SameMsgs d d') (started : d'.started = d.started)
  | reload (m : Msg) (h : Reloaded d d' m) (started : d'.started = d.started)
  | exit (c : ℕ) (h : Stopped d d' c) (started : d'.started = d.started)
  | loop (k : Kid) (h : SameMsgs d d') (mem : k ∈ d.kids) (run : k.life = .running) (msg : k.msg d ≠ some .EXIT)

section Steps

variable {d d' : Daemon} {a : Act}

theorem comm_local (hcomm : d'.comm = d.comm) (hmsgs : d'.msgs = d.msgs) (hreloads : d'.reloads = d.reloads)
    (hexited : d'.exited = d.exited) (hstarted : d'.started = d.started) : CommEffect d d' :=
  .same ⟨Or.inl hcomm, hmsgs, hreloads, hexited⟩ hstarted

/-- au_fhsmd_load, wherever the daemon goes next -/
theorem load_comm {r : LoadRes} {err : ℤ} (h : au_fhsmd_load d r = some (err, d')) (pc : Pc) (done : Bool) :
    CommEffect d { d' with pc := pc, done := done } := by
  unfold au_fhsmd_load at h
  split at h
  · cases h
    exact comm_local rfl rfl rfl rfl rfl
  · dsimp only at h
    split_ifs at h
    · cases h
      exact comm_local rfl rfl rfl rfl rfl
    · cases h
      exact comm_local rfl rfl rfl rfl rfl
    · split at h
      · cases h
        refine .reload _ ⟨rfl, rfl, rfl, rfl, ?_, rfl, rfl⟩ rfl
        intro hm
        -- the msg is that of the mapping in use, NONE without one
        rcases hb : d.comm.bind (d.msgs[·]?) with _ | m
        · rw [hb] at hm
          cases hm
        · rw [hb, Option.getD_some] at hm
          obtain ⟨c, -, hc⟩ := Option.bind_eq_some_iff.1 hb
          exact List.mem_of_getElem? (hm ▸ hc)
      · cases h
        exact .same ⟨Or.inr rfl, rfl, rfl, rfl⟩ rfl
      · cases h

theorem handle_msg_comm (d : Daemon) (evs : List Ev) (r : MsgRes) : CommEffect d (handle_msg d evs r) := by
  cases r with
  | read r =>
    simp only [handle_msg]
    split
    · exact comm_local rfl rfl rfl rfl rfl
    · rename_i v hl
      exact load_comm hl (.events evs) v.done
  | exit =>
    simp only [handle_msg]
    split
    · exact comm_local rfl rfl rfl rfl rfl
    · rename_i c hc
      exact .exit c ⟨hc, hc, rfl, rfl, rfl⟩ rfl
  | _ => exact comm_local rfl rfl rfl rfl rfl

theorem handle_fhsm_comm (d : Daemon) (evs : List Ev) (r : FhsmRes) : CommEffect d (handle_fhsm d evs r) := by
  unfold handle_fhsm
  split_ifs
  · exact comm_local rfl rfl rfl rfl rfl
  · cases r with
    | emsgsize r =>
      dsimp only
      split
      · exact comm_local rfl rfl rfl rfl rfl
      · rename_i v hl
        split_ifs
        · exact load_comm hl (.read_fhsm evs) v.done
        · exact load_comm hl (.events evs) true
    | _ => exact comm_local rfl rfl rfl rfl rfl

theorem au_mvdown_run_comm {brid : ℤ} {usage : Bool} {rest : List (ℤ × Bool)} {evs : List Ev} {fork : Option ℕ}
    (h : au_mvdown_run d brid usage rest evs fork = some d') : CommEffect d d' := by
  unfold au_mvdown_run at h
  split_ifs at h
  · cases h
    exact comm_local rfl rfl rfl rfl rfl
  · cases h
    exact comm_local rfl rfl rfl rfl rfl
  · cases h
    exact comm_local rfl rfl rfl rfl rfl
  · cases fork with
    | none =>
      cases h
      exact comm_local rfl rfl rfl rfl rfl
    | some pid =>
      dsimp only at h
      split_ifs at h
      cases h
      exact comm_local rfl rfl rfl rfl rfl

theorem handle_sig_comm {evs : List Ev} {r : SigRes} (h : handle_sig d evs r = some d') : CommEffect d d' := by
  cases r with
  | chld =>
    simp only [handle_sig] at h
    split at h <;> cases h
    exact comm_local rfl rfl rfl rfl rfl
  | _ =>
    cases h
    exact comm_local rfl rfl rfl rfl rfl

theorem step_comm (h : step d a = some d') : CommEffect d d' := by
  cases step_cases h with
  | loop _ h =>
    subst h
    exact comm_local rfl rfl rfl rfl rfl
  | moved pc _ _ _ h =>
    subst h
    exact comm_local rfl rfl rfl rfl rfl
  | signal evs r _ h => exact handle_sig_comm h
  | waitpid pid evs _ h =>
    unfold waitpid at h
    split at h
    · cases h
      exact comm_local rfl rfl rfl rfl rfl
    · split_ifs at h
      cases h
      exact comm_local rfl rfl rfl rfl rfl
  | msg evs r _ h =>
    subst h
    exact handle_msg_comm d evs r
  | fhsm evs _ h =>
    subst h
    exact comm_local rfl rfl rfl rfl rfl
  | read_fhsm evs r _ h =>
    subst h
    exact handle_fhsm_comm d evs r
  | mvdown brid usage rest evs fork _ _ h => exact au_mvdown_run_comm h
  | child pid old new _ _ h =>
    unfold child_changes at h
    split at h
    · cases h
    · split_ifs at h
      cases h
      exact comm_local rfl rfl rfl rfl rfl
  | child_loop pid h =>
    unfold child_loop at h
    split at h
    · cases h
    · rename_i k hf
      split_ifs at h with hk
      cases h
      exact .loop k ⟨Or.inl rfl, rfl, rfl, rfl⟩ (List.mem_of_find?_eq_some hf) hk.1 hk.2

/-- a child after a step is one from before, with its mapping, and alive before if it is now; or it was forked just now,
with the mapping in use -/
theorem step_kids (hp : Proc d) (h : step d a = some d') :
    d.forked ≤ d'.forked ∧ ∀ l ∈ d'.kids,
      (∃ k ∈ d.kids, k.no = l.no ∧ k.map = l.map ∧ (l.life ≠ .zombie → k.life ≠ .zombie)) ∨
        (l.no = d.forked ∧ l.map = d.comm ∧ d'.forked = d.forked + 1 ∧ ∃ es evs, d.pc = .mvdown es evs) := by
  cases step_effect h with
  | same h => exact ⟨h.forked.ge, fun l hl => Or.inl ⟨l, h.kids ▸ hl, rfl, rfl, id⟩⟩
  | forked brid pid h =>
    refine ⟨by rw [h.forked]; exact Nat.le_succ _, ?_⟩
    intro l hl
    rw [h.kids, List.mem_cons] at hl
    rcases hl with rfl | hl
    · exact Or.inr ⟨rfl, rfl, h.forked, h.pc⟩
    · exact Or.inl ⟨l, hl, rfl, rfl, id⟩
  | fork_failed brid h _ => exact ⟨h.forked.ge, fun l hl => Or.inl ⟨l, h.kids ▸ hl, rfl, rfl, id⟩⟩
  | chld pid h => exact ⟨h.forked.ge, fun l hl => Or.inl ⟨l, h.kids ▸ hl, rfl, rfl, id⟩⟩
  | reaped k h =>
    refine ⟨h.forked.ge, fun l hl => Or.inl ⟨l, ?_, rfl, rfl, id⟩⟩
    rw [h.kids] at hl
    exact List.mem_of_mem_eraseP hl
  | no_child pid h => exact ⟨h.forked.ge, fun l hl => Or.inl ⟨l, h.kids ▸ hl, rfl, rfl, id⟩⟩
  | changed k new h _ =>
    refine ⟨h.forked.ge, fun l hl => Or.inl ?_⟩
    rw [h.kids, List.mem_map] at hl
    obtain ⟨m, hm, rfl⟩ := hl
    refine ⟨m, hm, ?_⟩
    by_cases hmk : m.pid = k.pid
    · obtain rfl := List.inj_on_of_nodup_map hp.pid_nodup hm h.mem hmk
      rw [if_pos rfl]
      exact ⟨rfl, rfl, fun _ => h.alive⟩
    · rw [if_neg hmk]
      exact ⟨rfl, rfl, id⟩

end Steps

/-! ## The numbers of the mappings -/

/-- the mapping in use is the last one; a child has the one that was the last when it was forked; no mapping says EXIT
before an EXIT message -/
structure Shm (d : Daemon) : Prop where
  len : d.msgs.length = d.reloads.length + 1
  comm : ∀ c, d.comm = some c → c = d.reloads.length
  kid : ∀ k ∈ d.kids, k.no < d.forked ∧ k.map = some (d.reloads.countP (· ≤ k.no))
  past : ∀ m ∈ d.reloads, m ≤ d.forked
  clean : d.exited = false → .EXIT ∉ d.msgs

theorem shm_init (n : ℕ) : Shm (init n) := by
  refine ⟨?_, ?_, ?_, ?_, ?_⟩ <;> simp [init]

section Shm

variable {d d' : Daemon} {a : Act}

/-- the children after a step that makes no new mapping -/
theorem Shm.kids_step (hi : Shm d) (hp : Proc d) (hc : Ctl d) (h : step d a = some d')
    (hreloads : d'.reloads = d.reloads) :
    ∀ k ∈ d'.kids, k.no < d'.forked ∧ k.map = some (d'.reloads.countP (· ≤ k.no)) := by
  intro l hl
  obtain ⟨hle, hkids⟩ := step_kids hp h
  rw [hreloads]
  rcases hkids l hl with ⟨k, hk, hno, hmap, -⟩ | ⟨hno, hmap, hforked, es, evs, hpc⟩
  · obtain ⟨hlt, hm⟩ := hi.kid k hk
    rw [← hno, ← hmap]
    exact ⟨hlt.trans_le hle, hm⟩
  · -- all reloads were before this fork
    obtain ⟨c, hcomm⟩ := Option.isSome_iff_exists.1 (hc.mvdown es evs hpc).2
    have hall : d.reloads.countP (· ≤ d.forked) = d.reloads.length := by
      rw [List.countP_eq_length]
      intro m hm
      simpa using hi.past m hm
    rw [hno, hmap, hforked, hall, hcomm, hi.comm c hcomm]
    exact ⟨Nat.lt_succ_self _, rfl⟩

theorem SameMsgs.shm (h : SameMsgs d d') (hi : Shm d) (hp : Proc d) (hc : Ctl d) (hs : step d a = some d') :
    Shm d' := by
  refine ⟨by rw [h.msgs, h.reloads]; exact hi.len, ?_, hi.kids_step hp hc hs h.reloads, ?_,
    by rw [h.msgs, h.exited]; exact hi.clean⟩
  · intro c hcomm
    rw [h.reloads]
    rcases h.comm with hsame | hnone
    · exact hi.comm c (hsame ▸ hcomm)
    · rw [hnone] at hcomm
      cases hcomm
  · intro m hm
    rw [h.reloads] at hm
    exact (hi.past m hm).trans (step_kids hp hs).1

theorem Reloaded.shm {m : Msg} (h : Reloaded d d' m) (hi : Shm d) : Shm d' := by
  refine ⟨?_, ?_, ?_, ?_, ?_⟩
  · rw [h.msgs, h.reloads, List.length_append, hi.len, List.length_singleton, List.length_cons]
  · intro c hcomm
    rw [h.comm, Option.some.injEq] at hcomm
    rw [← hcomm, h.reloads, List.length_cons, hi.len]
  · intro k hk
    -- the children there are were forked before
    rw [h.kids] at hk
    obtain ⟨hlt, hmap⟩ := hi.kid k hk
    rw [h.forked, h.reloads, List.countP_cons_of_neg (by simpa using hlt)]
    exact ⟨hlt, hmap⟩
  · intro i hm
    rw [h.forked]
    rw [h.reloads, List.mem_cons] at hm
    rcases hm with rfl | hm
    · exact le_rfl
    · exact hi.past i hm
  · intro he hmem
    rw [h.exited] at he
    rw [h.msgs, List.mem_append, List.mem_singleton] at hmem
    rcases hmem with hmem | hmem
    · exact hi.clean he hmem
    · exact hi.clean he (h.copied hmem.symm)

theorem Stopped.shm {c : ℕ} (h : Stopped d d' c) (hi : Shm d) (hp : Proc d) (hc : Ctl d) (hs : step d a = some d') :
    Shm d' := by
  refine ⟨by rw [h.msgs, h.reloads, List.length_set]; exact hi.len, ?_, hi.kids_step hp hc hs h.reloads, ?_, ?_⟩
  · intro i hcomm
    rw [h.reloads]
    rw [h.comm, ← h.used] at hcomm
    exact hi.comm i hcomm
  · intro m hm
    rw [h.reloads] at hm
    exact (hi.past m hm).trans (step_kids hp hs).1
  · intro he
    rw [h.exited] at he
    cases he

theorem shm_step (hi : Shm d) (hp : Proc d) (hc : Ctl d) (h : step d a = some d') : Shm d' := by
  cases step_comm h with
  | same hm _ => exact hm.shm hi hp hc h
  | reload m hm _ => exact hm.shm hi
  | exit c hm _ => exact hm.shm hi hp hc h
  | loop k hm _ _ _ => exact hm.shm hi hp hc h

end Shm

theorem shm_run (n : ℕ) {acts : List Act} {d : Daemon} (h : exec step (init n) acts = some d) : Shm d :=
  (exec_invariant step (fun d => Shm d ∧ Proc d ∧ Ctl d)
    (fun _ _ _ hi hs => ⟨shm_step hi.1 hi.2.1 hi.2.2 hs, proc_step hi.2.1 hs, (step_ctl hi.2.2 hs).ctl⟩)
    ⟨shm_init n, proc_init n, ctl_init n⟩ h).1

/-! ## Children that were told -/

/-- every child alive sees EXIT -/
def Told (d : Daemon) : Prop := ∀ k ∈ d.kids, k.life ≠ .zombie → k.msg d = some .EXIT

/-- in every continuation every child alive sees EXIT, and no do_mvdown is started any more -/
def Reached (d : Daemon) : Prop :=
  ∀ acts d', exec step d acts = some d' → Told d' ∧ d'.started = d.started

/-- no child is forked from now on -/
def Settled (d : Daemon) : Prop := d.stopped = true ∨ d.pc = .gone

section Told

variable {d d' : Daemon} {a : Act}

theorem step_gone (h : step d a = some d') (hpc : d.pc = .gone) : d'.pc = .gone := by
  cases a with
  | child_loop pid =>
    simp only [step, child_loop] at h
    split at h
    · cases h
    · split_ifs at h
      cases h
      exact hpc
  | child_exit pid | child_stop pid | child_cont pid =>
    simp only [step, child_changes] at h
    split at h
    · cases h
    · split_ifs at h
      cases h
      exact hpc
  | _ => simp [step, hpc] at h

theorem settled_step (hc : Ctl d) (h : step d a = some d') (hs : Settled d) : Settled d' :=
  hs.imp (step_ctl hc h).stopped (step_gone h)

/-- once no child is forked, a child after a step is one from before -/
theorem settled_kids (hp : Proc d) (hc : Ctl d) (hs : Settled d) (h : step d a = some d') {l : Kid} (hl : l ∈ d'.kids) :
    ∃ k ∈ d.kids, k.map = l.map ∧ (l.life ≠ .zombie → k.life ≠ .zombie) := by
  rcases (step_kids hp h).2 l hl with ⟨k, hk, -, hmap, hlife⟩ | ⟨-, -, hforked, es, evs, hpc⟩
  · exact ⟨k, hk, hmap, hlife⟩
  · rcases hs with hs | hs
    · have hno := step_no_fork hc h hs
      omega
    · rw [hs] at hpc
      cases hpc

/-- an EXIT in a mapping stays there -/
theorem exit_stays (h : step d a = some d') {i : ℕ} (hi : d.msgs[i]? = some .EXIT) : d'.msgs[i]? = some .EXIT := by
  have hlt := (List.getElem?_eq_some_iff.1 hi).1
  cases step_comm h with
  | same hm _ => rwa [hm.msgs]
  | loop k hm _ _ _ => rwa [hm.msgs]
  | reload m hm _ => rwa [hm.msgs, List.getElem?_append_left hlt]
  | exit c hm _ =>
    rw [hm.msgs]
    by_cases hci : c = i
    · rw [hci, List.getElem?_set_self hlt]
    · rwa [List.getElem?_set_ne hci]

/-- once told, the children stay told, and start nothing -/
theorem told_step (hp : Proc d) (hc : Ctl d) (hs : Settled d) (ht : Told d) (h : step d a = some d') :
    Told d' ∧ d'.started = d.started := by
  refine ⟨?_, ?_⟩
  · intro l hl hlife
    obtain ⟨k, hk, hmap, hk'⟩ := settled_kids hp hc hs h hl
    obtain ⟨i, hi, hmsg⟩ := Option.bind_eq_some_iff.1 (ht k hk (hk' hlife))
    rw [Kid.msg, ← hmap, hi, Option.bind_some]
    exact exit_stays h hmsg
  · cases step_comm h with
    | same _ hst => exact hst
    | reload _ _ hst => exact hst
    | exit _ _ hst => exact hst
    | loop k _ hk hrun hmsg => exact absurd (ht k hk (by rw [hrun]; decide)) hmsg

theorem reached_of_told (hp : Proc d) (hc : Ctl d) (hs : Settled d) (ht : Told d) : Reached d := by
  intro acts d' h
  have hrun := exec_relation step (fun t => (Proc t ∧ Ctl t ∧ Settled t) ∧ Told t)
    (fun s t => Told s → Told t ∧ t.started = s.started) (fun s hs => ⟨hs, rfl⟩)
    (fun s t u hst htu hs => ⟨(htu (hst hs).1).1, (htu (hst hs).1).2.trans (hst hs).2⟩)
    (fun s a t ⟨⟨hp, hc, hs⟩, ht⟩ hstep =>
      have htold := told_step hp hc hs ht hstep
      ⟨⟨⟨proc_step hp hstep, (step_ctl hc hstep).ctl, settled_step hc hstep hs⟩, htold.1⟩, fun _ => htold⟩)
    ⟨⟨hp, hc, hs⟩, ht⟩ h
  exact hrun ht

end Told

/-- without a mapping handle_msg dies of the EXIT message -/
theorem exit_cases {d d' : Daemon} (h : step d (.msg .exit) = some d') :
    (d.comm = none ∧ d' = crash d) ∨ ∃ c, Stopped d d' c ∧ d'.kids = d.kids ∧ d'.stopped = true := by
  simp only [step, handle_msg] at h
  split at h
  · split at h
    · rename_i hcomm
      cases h
      exact Or.inl ⟨hcomm, rfl⟩
    · rename_i c hcomm
      cases h
      exact Or.inr ⟨c, ⟨hcomm, hcomm, rfl, rfl, rfl⟩, rfl, rfl⟩
  · cases h

/-- the mapping of a child is the one in use exactly if there was no reload since its fork -/
theorem Shm.map_eq_iff {d : Daemon} (hi : Shm d) {c : ℕ} (hc : d.comm = some c) {k : Kid} (hk : k ∈ d.kids) :
    k.map = some c ↔ ∀ m ∈ d.reloads, m ≤ k.no := by
  rw [(hi.kid k hk).2, Option.some.injEq, hi.comm c hc, List.countP_eq_length]
  simp

/-- before the first EXIT message, no child sees EXIT -/
theorem Shm.msg_ne {d : Daemon} (hi : Shm d) (he : d.exited = false) (k : Kid) : k.msg d ≠ some .EXIT := by
  intro hmsg
  obtain ⟨i, -, hi'⟩ := Option.bind_eq_some_iff.1 hmsg
  exact hi.clean he (List.mem_of_getElem? hi')

/-- the children that see the first EXIT are those with the mapping it is written into -/
theorem Stopped.msg_iff {d d' : Daemon} {c : ℕ} (h : Stopped d d' c) (hi : Shm d) (he : d.exited = false) (k : Kid) :
    k.msg d' = some .EXIT ↔ k.map = some c := by
  have hlt : c < d.msgs.length := by
    rw [hi.len, hi.comm c h.used]
    exact Nat.lt_succ_self _
  refine ⟨?_, ?_⟩
  · intro hmsg
    obtain ⟨i, hmap, hi'⟩ := Option.bind_eq_some_iff.1 hmsg
    rw [h.msgs] at hi'
    by_cases hci : c = i
    · rw [hmap, hci]
    · rw [List.getElem?_set_ne hci] at hi'
      exact absurd (List.mem_of_getElem? hi') (hi.clean he)
  · intro hmap
    rw [Kid.msg, hmap, Option.bind_some, h.msgs, List.getElem?_set_self hlt]

/-- **Stop requests.** Whatever notifications, messages, reloads, signals and exits there were before: when handle_msg
reads the first EXIT, all children alive see it, and never start a do_mvdown again, exactly if the daemon has a mapping
and none of the reloads was made after one of them was forked. -/
theorem exit_reaches_iff (n : ℕ) (acts : List Act) (d d' : Daemon) (h : exec step (init n) acts = some d)
    (hfirst : d.exited = false) (hexit : step d (.msg .exit) = some d') :
    Reached d' ↔ ∀ k ∈ d.kids, k.life ≠ .zombie → d.comm.isSome ∧ ∀ m ∈ d.reloads, m ≤ k.no := by
  have hi := shm_run n h
  have hp' := proc_step (proc_run n h) hexit
  have hc' := (step_ctl (ctl_run n h) hexit).ctl
  have hstart : Reached d' → Told d' := fun hr => (hr [] d' rfl).1
  rcases exit_cases hexit with ⟨hcomm, rfl⟩ | ⟨c, hs, hkids, hstop⟩
  · -- the daemon dies, and nobody is told
    refine ⟨fun hr k hk hlife => absurd (hstart hr k hk hlife) (hi.msg_ne hfirst k), ?_⟩
    intro hall
    refine reached_of_told hp' hc' (Or.inr rfl) ?_
    intro k hk hlife
    have hsome := (hall k hk hlife).1
    rw [hcomm] at hsome
    cases hsome
  · have hiff : Told d' ↔ ∀ k ∈ d.kids, k.life ≠ .zombie → d.comm.isSome ∧ ∀ m ∈ d.reloads, m ≤ k.no := by
      rw [Told, hkids]
      refine forall₃_congr ?_
      intro k hk _
      have hsome : d.comm.isSome := by rw [hs.used]; rfl
      calc k.msg d' = some .EXIT ↔ k.map = some c := hs.msg_iff hi hfirst k
        _ ↔ ∀ m ∈ d.reloads, m ≤ k.no := hi.map_eq_iff hs.used hk
        _ ↔ d.comm.isSome ∧ ∀ m ∈ d.reloads, m ≤ k.no := (and_iff_right hsome).symm
    exact ⟨fun hr => hiff.1 (hstart hr), fun hall => reached_of_told hp' hc' (Or.inl hstop) (hiff.2 hall)⟩

/-- a child for branch 0, then the stop request -/
def forkExit : List Act :=
  [.loop, .epoll (.events [.fhsm, .msg]), .fhsm, .read_fhsm (.entries [(0, true)]), .mvdown (some 10), .next,
    .child_loop 10]

/-- where `forkExit` ends -/
def forkExitEnd : Daemon :=
  ⟨.events [.msg], false, [⟨0, 10⟩], some 2, some 0, [.NONE], none, [⟨0, 10, 0, some 0, .running⟩], 1, [], false, false,
    [], [0]⟩

/-- after the stop request -/
def forkExitStop : Daemon :=
  { forkExitEnd with pc := .events [], msgs := [.EXIT], done := true, exited := true, stopped := true }

theorem exit_reaches_iff_fork :
    exec step (init 2) forkExit = some forkExitEnd ∧ step forkExitEnd (.msg .exit) = some forkExitStop ∧
      (Reached forkExitStop ↔
        ∀ k ∈ forkExitEnd.kids, k.life ≠ .zombie → forkExitEnd.comm.isSome ∧ ∀ m ∈ forkExitEnd.reloads, m ≤ k.no) :=
  ⟨by decide, by decide, exit_reaches_iff 2 forkExit forkExitEnd forkExitStop (by decide) rfl (by decide)⟩

/-- a child for branch 0, and a READ message after it was forked -/
def forkRead : List Act :=
  [.loop, .epoll (.events [.fhsm, .msg]), .fhsm, .read_fhsm (.entries [(0, true)]), .mvdown (some 10), .next,
    .msg (.read ⟨some 2, true, .ok⟩), .next, .loop, .epoll (.events [.msg])]

/-- where `forkRead` ends; the child has mapping 0, the daemon mapping 1 -/
def forkReadEnd : Daemon :=
  ⟨.events [.msg], false, [⟨0, 10⟩], some 2, some 1, [.NONE, .NONE], none, [⟨0, 10, 0, some 0, .running⟩], 1, [], false,
    false, [1], []⟩

/-- after the stop request -/
def forkReadStop : Daemon :=
  { forkReadEnd with pc := .events [], msgs := [.NONE, .EXIT], done := true, exited := true, stopped := true }

/-- **A child does not see the stop request.** -/
theorem exit_missed :
    ¬∀ (n : ℕ) (acts : List Act) (d d' : Daemon), exec step (init n) acts = some d → d.exited = false →
      step d (.msg .exit) = some d' → d'.exited = true → Reached d' := by
  intro h
  have hr := h 2 forkRead forkReadEnd forkReadStop (by decide) rfl (by decide) rfl
  have hstarted := (hr [.child_loop 10] { forkReadStop with started := [0] } (by decide)).2
  cases hstarted

end AufsUtil.Fhsm
