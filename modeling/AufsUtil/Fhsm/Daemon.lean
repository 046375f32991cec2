/-
The event loop of the daemon and its children (`fhsm/event.c`, au_mvdown_run of `fhsm/mvdown.c`), in daemon mode.

The daemon sleeps in epoll_wait and handles up to three events a turn: a signal, a message of the controller, or a
notification of aufs about branches. For a branch that is over its watermark and not in operation it forks a child; the
branch is entered into `in_ope` before the fork and taken out when the SIGCHLD of the child is read. A stop request sets
`done`, and the loop ends when `in_ope` is empty too. Parent and children share a mapping; its `msg` tells the children
to stop. au_fhsmd_load makes a new mapping, children keep the one they inherited.

The machine takes one step at a time (`step`): the daemon's next system call with its result, or something a child or
the kernel does in between. At most one SIGCHLD is pending; a later one is merged into it.

What the model keeps of C:
- handle_sig waits for the child whose pid the signal carries, with waitpid(2) and no option, also if that child only
  stopped: the daemon sleeps there until the child has exited;
- a failed fork leaves its entry in `in_ope`, with pid 0;
- a notification is not read once `done` is set, messages and signals are;
- an access through a NULL `comm` or `lcopy`, left by a failed au_fhsmd_load, ends the process (`gone`), as does the
  pointer that fhsmd_comm returns when au_shm_create fails (`wild`);
- test_usage is an input, one truth value for each entry of a notification, and malloc(3) does not fail.
The fields from `forked` on are history; no step depends on them.

`step_cases` says once which part of the loop, or which child, a step belongs to; `step_effect` what it does to the
children, to in_ope and to the pending signal. The invariants of the other modules are proved from these two.
-/
import Mathlib.Tactic
import AufsUtil.Lib.Runs

namespace AufsUtil.Fhsm

open AufsUtil.Runs

/-! ## The daemon -/

/-- aufhsm_msg_t -/
inductive Msg where
  | NONE
  | READ
  | EXIT
deriving DecidableEq, Repr

/-- struct in_ope -/
structure InOpe where
  brid : ℤ
  pid : ℕ
deriving DecidableEq, Repr

inductive Life where
  | running
  | stopped
  | zombie
deriving DecidableEq, Repr

/-- a child that was not waited for yet: its number, its branch, and the mapping it inherited -/
structure Kid where
  no : ℕ
  pid : ℕ
  brid : ℤ
  map : Option ℕ
  life : Life
deriving DecidableEq, Repr

/-- the descriptor of an epoll event -/
inductive Ev where
  | signal
  | msg
  | fhsm
  | other
deriving DecidableEq, Repr

/-- where the daemon is; `evs` are the events of the batch not handled yet, `entries` the branches of the notification
not handled yet: brid, and what test_usage says -/
inductive Pc where
  | head
  | epoll
  | events (evs : List Ev)
  | read_fhsm (evs : List Ev)
  | mvdown (entries : List (ℤ × Bool)) (evs : List Ev)
  | wait (pid : ℕ) (evs : List Ev)
  | returned
  | gone
deriving DecidableEq, Repr

/-- `lcopy` is nwmark of the local copy, `comm` the number of the mapping in use, `msgs` the msg of every mapping -/
structure Daemon where
  pc : Pc
  done : Bool
  in_ope : List InOpe
  lcopy : Option ℕ
  comm : Option ℕ
  msgs : List Msg
  sigchld : Option ℕ
  kids : List Kid
  /-- the number of children forked, and the numbers of those waited for -/
  forked : ℕ
  waited : List ℕ
  /-- an EXIT message was handled; that, or a terminating signal -/
  exited : Bool
  stopped : Bool
  /-- for every new mapping, how many children had been forked by then -/
  reloads : List ℕ
  /-- the children that started a do_mvdown -/
  started : List ℕ
deriving DecidableEq, Repr

/-! ## Inputs -/

inductive CommRes where
  | ok
  | null
  | wild

/-- au_fhsmd_load: nwmark of the loaded table, munmap(2), fhsmd_comm -/
structure LoadRes where
  lcopy : Option ℕ
  munmap : Bool
  comm : CommRes

inductive EpollRes where
  | eintr
  | error
  | events (evs : List Ev)

inductive SigRes where
  | eagain
  | error
  | hup
  | term
  | chld

inductive MsgRes where
  | eagain
  | error
  | read (load : LoadRes)
  | exit
  | bad

inductive FhsmRes where
  | zero
  | entries (entries : List (ℤ × Bool))
  | emsgsize (load : LoadRes)
  | error

/-- one step of the daemon, or of a child; `fork` is the pid, or none when fork(2) fails -/
inductive Act where
  | loop
  | epoll (r : EpollRes)
  | next
  | signal (r : SigRes)
  | waitpid
  | msg (r : MsgRes)
  | fhsm
  | read_fhsm (r : FhsmRes)
  | mvdown (fork : Option ℕ)
  | child_exit (pid : ℕ)
  | child_stop (pid : ℕ)
  | child_cont (pid : ℕ)
  | child_loop (pid : ℕ)

/-! ## Steps -/

/-- the value of au_fhsmd_load and the daemon then; `none` is a wild pointer -/
def au_fhsmd_load (d : Daemon) (r : LoadRes) : Option (ℤ × Daemon) :=
  match r.lcopy with
  | none => some (-1, { d with lcopy := none })
  | some n =>
    let d' := { d with lcopy := some n }
    if d.lcopy.getD 0 > n then some (-1, d')
    else if d.comm.isSome && !r.munmap then some (-1, d')
    else
      let msg := ((d.comm.bind (d.msgs[·]?))).getD .NONE
      match r.comm with
      | .ok => some (0, { d' with
          comm := some d.msgs.length, msgs := d.msgs ++ [msg], reloads := d.forked :: d.reloads })
      | .null => some (-1, { d' with comm := none })
      | .wild => none

def crash (d : Daemon) : Daemon := { d with pc := .gone }

/-- read(2) of the signal descriptor and the switch; the list entry goes before the child is waited for -/
def handle_sig (d : Daemon) (evs : List Ev) : SigRes → Option Daemon
  | .eagain => some { d with pc := .events evs }
  | .error => some { d with pc := .events evs, done := true }
  | .hup => some { d with pc := .events evs }
  | .term => some { d with pc := .events evs, done := true, stopped := true }
  | .chld =>
    match d.sigchld with
    | none => none
    | some pid =>
      some { d with pc := .wait pid evs, sigchld := none, in_ope := d.in_ope.eraseP (·.pid = pid) }

/-- waitpid(2): the child is a zombie, or there is no such child; else the daemon sleeps -/
def waitpid (d : Daemon) (pid : ℕ) (evs : List Ev) : Option Daemon :=
  match d.kids.find? (·.pid = pid) with
  | none => some { d with pc := .events evs }
  | some k =>
    if k.life = .zombie then
      some { d with pc := .events evs, kids := d.kids.eraseP (·.pid = pid), waited := k.no :: d.waited }
    else none

def handle_msg (d : Daemon) (evs : List Ev) : MsgRes → Daemon
  | .eagain | .error | .bad => { d with pc := .events evs }
  | .read r =>
    match au_fhsmd_load d r with
    | none => crash d
    | some (_, d) => { d with pc := .events evs }
  | .exit =>
    match d.comm with
    | none => crash d
    | some c => { d with
        pc := .events evs, msgs := d.msgs.set c .EXIT, done := true, exited := true, stopped := true }

/-- read(2) of the notification -/
def handle_fhsm (d : Daemon) (evs : List Ev) (r : FhsmRes) : Daemon :=
  if d.comm.isNone then crash d
  else
    match r with
    | .zero => { d with pc := .events evs }
    | .entries es => { d with pc := .mvdown es evs }
    | .error => { d with pc := .events evs, done := true }
    | .emsgsize r =>
      match au_fhsmd_load d r with
      | none => crash d
      | some (err, d) => if err = 0 then { d with pc := .read_fhsm evs } else { d with pc := .events evs, done := true }

/-- one entry of the notification; the parent's `next` stays NULL -/
def au_mvdown_run (d : Daemon) (brid : ℤ) (usage : Bool) (rest : List (ℤ × Bool)) (evs : List Ev) (fork : Option ℕ) :
    Option Daemon :=
  if d.lcopy.isNone then some (crash d)
  else if !usage then some { d with pc := .mvdown rest evs }
  else if d.in_ope.any (·.brid = brid) then some { d with pc := .mvdown rest evs }
  else
    match fork with
    | some pid =>
      -- the kernel gives no pid that is in use
      if pid = 0 ∨ d.kids.any (·.pid = pid) then none
      else some { d with
        pc := .mvdown rest evs, in_ope := ⟨brid, pid⟩ :: d.in_ope,
        kids := ⟨d.forked, pid, brid, d.comm, .running⟩ :: d.kids, forked := d.forked + 1 }
    | none => some { d with pc := .events evs, done := true, in_ope := ⟨brid, 0⟩ :: d.in_ope }

/-- SIGCHLD for the child pid, merged into a pending one -/
def raise (d : Daemon) (pid : ℕ) : Option ℕ := d.sigchld.or (some pid)

/-- the child pid goes from one state to another, and the parent is told -/
def child_changes (d : Daemon) (pid : ℕ) (old : Life → Bool) (new : Life) : Option Daemon :=
  match d.kids.find? (·.pid = pid) with
  | none => none
  | some k =>
    if old k.life then
      some { d with
        kids := d.kids.map fun k => if k.pid = pid then { k with life := new } else k, sigchld := raise d pid }
    else none

/-- what a child reads in the mapping it inherited -/
def Kid.msg (d : Daemon) (k : Kid) : Option Msg := k.map.bind (d.msgs[·]?)

/-- the head of the loop in mvdown_child: one more do_mvdown, unless the msg is EXIT -/
def child_loop (d : Daemon) (pid : ℕ) : Option Daemon :=
  match d.kids.find? (·.pid = pid) with
  | none => none
  | some k =>
    if k.life = .running ∧ k.msg d ≠ some .EXIT then some { d with started := k.no :: d.started } else none

/-- EVENTS of event.c -/
def EVENTS : ℕ := 3

def step (d : Daemon) : Act → Option Daemon
  | .loop =>
    match d.pc with
    | .head => some { d with pc := if !d.done || !d.in_ope.isEmpty then .epoll else .returned }
    | _ => none
  | .epoll r =>
    match d.pc, r with
    | .epoll, .eintr => some { d with pc := .head }
    | .epoll, .error => some (crash d)
    | .epoll, .events evs => if evs.length ≤ EVENTS then some { d with pc := .events evs } else none
    | _, _ => none
  | .next =>
    match d.pc with
    | .events [] => some { d with pc := .head }
    | .events (.other :: _) => some (crash d)
    | .mvdown [] evs => some { d with pc := .events evs }
    | _ => none
  | .signal r =>
    match d.pc with
    | .events (.signal :: evs) => handle_sig d evs r
    | _ => none
  | .waitpid =>
    match d.pc with
    | .wait pid evs => waitpid d pid evs
    | _ => none
  | .msg r =>
    match d.pc with
    | .events (.msg :: evs) => some (handle_msg d evs r)
    | _ => none
  | .fhsm =>
    match d.pc with
    | .events (.fhsm :: evs) => some { d with pc := if d.done then .events evs else .read_fhsm evs }
    | _ => none
  | .read_fhsm r =>
    match d.pc with
    | .read_fhsm evs => some (handle_fhsm d evs r)
    | _ => none
  | .mvdown fork =>
    match d.pc with
    | .mvdown ((brid, usage) :: rest) evs => au_mvdown_run d brid usage rest evs fork
    | _ => none
  | .child_exit pid => child_changes d pid (· ≠ .zombie) .zombie
  | .child_stop pid => child_changes d pid (· = .running) .stopped
  | .child_cont pid => child_changes d pid (· = .stopped) .running
  | .child_loop pid => child_loop d pid

/-- when main calls au_fhsmd_loop: the first au_fhsmd_load succeeded, with a table of n records -/
def init (n : ℕ) : Daemon :=
  ⟨.head, false, [], some n, some 0, [.NONE], none, [], 0, [], false, false, [], []⟩

/-! ## What a step can do -/

/-- the child the daemon waits for -/
def waiting (d : Daemon) : Option ℕ :=
  match d.pc with
  | .wait pid _ => some pid
  | _ => none

/-- au_mvdown_run would fork now -/
def attempts (d : Daemon) : Bool :=
  match d.pc with
  | .mvdown ((brid, usage) :: _) _ => d.lcopy.isSome && usage && !d.in_ope.any (·.brid = brid)
  | _ => false

/-- the daemon neither handles a notification nor has it returned -/
def Pc.elsewhere : Pc → Bool
  | .read_fhsm _ | .mvdown _ _ | .returned => false
  | _ => true

/-- which part of the loop, or which child, made a step -/
inductive StepCase (d d' : Daemon) (a : Act) : Prop where
  | loop (hpc : d.pc = .head) (h : d' = { d with pc := if !d.done || !d.in_ope.isEmpty then .epoll else .returned })
  | moved (pc : Pc) (hw : waiting d = none) (hw' : waiting { d with pc := pc } = none) (hpc : pc.elsewhere = true)
      (h : d' = { d with pc := pc })
  | signal (evs : List Ev) (r : SigRes) (hpc : d.pc = .events (.signal :: evs)) (h : handle_sig d evs r = some d')
  | waitpid (pid : ℕ) (evs : List Ev) (hpc : d.pc = .wait pid evs) (h : waitpid d pid evs = some d')
  | msg (evs : List Ev) (r : MsgRes) (hpc : d.pc = .events (.msg :: evs)) (h : d' = handle_msg d evs r)
  | fhsm (evs : List Ev) (hpc : d.pc = .events (.fhsm :: evs))
      (h : d' = { d with pc := if d.done then .events evs else .read_fhsm evs })
  | read_fhsm (evs : List Ev) (r : FhsmRes) (hpc : d.pc = .read_fhsm evs) (h : d' = handle_fhsm d evs r)
  | mvdown (brid : ℤ) (usage : Bool) (rest : List (ℤ × Bool)) (evs : List Ev) (fork : Option ℕ) (ha : a = .mvdown fork)
      (hpc : d.pc = .mvdown ((brid, usage) :: rest) evs) (h : au_mvdown_run d brid usage rest evs fork = some d')
  | child (pid : ℕ) (old : Life → Bool) (new : Life) (hold : old .zombie = false)
      (ha : (a = .child_exit pid ∧ new = .zombie) ∨ a = .child_stop pid ∨ a = .child_cont pid)
      (h : child_changes d pid old new = some d')
  | child_loop (pid : ℕ) (h : child_loop d pid = some d')

theorem step_cases {d d' : Daemon} {a : Act} (h : step d a = some d') : StepCase d d' a := by
  cases a with
  | loop =>
    simp only [step] at h
    split at h
    · rename_i hpc
      cases h
      exact .loop hpc rfl
    · cases h
  | epoll r =>
    simp only [step] at h
    split at h
    · rename_i hpc
      cases h
      exact .moved .head (by rw [waiting, hpc]) rfl rfl rfl
    · rename_i hpc
      cases h
      exact .moved .gone (by rw [waiting, hpc]) rfl rfl rfl
    · rename_i evs hpc
      split_ifs at h
      cases h
      exact .moved (.events evs) (by rw [waiting, hpc]) rfl rfl rfl
    · cases h
  | next =>
    simp only [step] at h
    split at h
    · rename_i hpc
      cases h
      exact .moved .head (by rw [waiting, hpc]) rfl rfl rfl
    · rename_i hpc
      cases h
      exact .moved .gone (by rw [waiting, hpc]) rfl rfl rfl
    · rename_i evs hpc
      cases h
      exact .moved (.events evs) (by rw [waiting, hpc]) rfl rfl rfl
    · cases h
  | signal r =>
    simp only [step] at h
    split at h
    · rename_i evs hpc
      exact .signal evs r hpc h
    · cases h
  | waitpid =>
    simp only [step] at h
    split at h
    · rename_i pid evs hpc
      exact .waitpid pid evs hpc h
    · cases h
  | msg r =>
    simp only [step] at h
    split at h
    · rename_i evs hpc
      cases h
      exact .msg evs r hpc rfl
    · cases h
  | fhsm =>
    simp only [step] at h
    split at h
    · rename_i evs hpc
      cases h
      exact .fhsm evs hpc rfl
    · cases h
  | read_fhsm r =>
    simp only [step] at h
    split at h
    · rename_i evs hpc
      cases h
      exact .read_fhsm evs r hpc rfl
    · cases h
  | mvdown fork =>
    simp only [step] at h
    split at h
    · rename_i brid usage rest evs hpc
      exact .mvdown brid usage rest evs fork rfl hpc h
    · cases h
  | child_exit pid => exact .child pid (fun l => decide (l ≠ .zombie)) .zombie (by decide) (Or.inl ⟨rfl, rfl⟩) h
  | child_stop pid => exact .child pid (fun l => decide (l = .running)) .stopped (by decide) (Or.inr (Or.inl rfl)) h
  | child_cont pid => exact .child pid (fun l => decide (l = .stopped)) .running (by decide) (Or.inr (Or.inr rfl)) h
  | child_loop pid => exact .child_loop pid h

/-- nothing about the children changes -/
structure Same (d d' : Daemon) : Prop where
  in_ope : d'.in_ope = d.in_ope
  sigchld : d'.sigchld = d.sigchld
  kids : d'.kids = d.kids
  forked : d'.forked = d.forked
  waited : d'.waited = d.waited
  wait : waiting d' = waiting d

/-- a child is forked for a branch that was not in operation -/
structure Forked (d d' : Daemon) (brid : ℤ) (pid : ℕ) : Prop where
  pc : ∃ es evs, d.pc = .mvdown es evs
  new : ∀ e ∈ d.in_ope, e.brid ≠ brid
  pid_ne : pid ≠ 0
  free : ∀ k ∈ d.kids, k.pid ≠ pid
  in_ope : d'.in_ope = ⟨brid, pid⟩ :: d.in_ope
  sigchld : d'.sigchld = d.sigchld
  kids : d'.kids = ⟨d.forked, pid, brid, d.comm, .running⟩ :: d.kids
  forked : d'.forked = d.forked + 1
  waited : d'.waited = d.waited
  wait : waiting d' = none
  comm : d'.comm = d.comm ∧ d'.msgs = d.msgs ∧ d'.reloads = d.reloads ∧ d'.exited = d.exited

/-- fork(2) failed, the entry stays -/
structure ForkFailed (d d' : Daemon) (brid : ℤ) : Prop where
  pc : ∃ es evs, d.pc = .mvdown es evs
  attempts : attempts d = true
  new : ∀ e ∈ d.in_ope, e.brid ≠ brid
  in_ope : d'.in_ope = ⟨brid, 0⟩ :: d.in_ope
  sigchld : d'.sigchld = d.sigchld
  kids : d'.kids = d.kids
  forked : d'.forked = d.forked
  waited : d'.waited = d.waited
  wait : waiting d' = none

/-- SIGCHLD is read, the entry of the child goes and the daemon waits for the child -/
structure GotChld (d d' : Daemon) (pid : ℕ) : Prop where
  pending : d.sigchld = some pid
  idle : waiting d = none
  in_ope : d'.in_ope = d.in_ope.eraseP (·.pid = pid)
  sigchld : d'.sigchld = none
  kids : d'.kids = d.kids
  forked : d'.forked = d.forked
  waited : d'.waited = d.waited
  wait : waiting d' = some pid

/-- the zombie is gone -/
structure Reaped (d d' : Daemon) (k : Kid) : Prop where
  waits : waiting d = some k.pid
  mem : k ∈ d.kids
  zombie : k.life = .zombie
  in_ope : d'.in_ope = d.in_ope
  sigchld : d'.sigchld = d.sigchld
  kids : d'.kids = d.kids.eraseP (·.pid = k.pid)
  forked : d'.forked = d.forked
  waited : d'.waited = k.no :: d.waited
  wait : waiting d' = none

/-- there was no child to wait for -/
structure NoChild (d d' : Daemon) (pid : ℕ) : Prop where
  waits : waiting d = some pid
  none : ∀ k ∈ d.kids, k.pid ≠ pid
  in_ope : d'.in_ope = d.in_ope
  sigchld : d'.sigchld = d.sigchld
  kids : d'.kids = d.kids
  forked : d'.forked = d.forked
  waited : d'.waited = d.waited
  wait : waiting d' = Option.none

/-- a child that is no zombie exits, stops or continues -/
structure Changed (d d' : Daemon) (k : Kid) (new : Life) : Prop where
  mem : k ∈ d.kids
  alive : k.life ≠ .zombie
  in_ope : d'.in_ope = d.in_ope
  sigchld : d'.sigchld = d.sigchld.or (some k.pid)
  kids : d'.kids = d.kids.map fun l => if l.pid = k.pid then { l with life := new } else l
  forked : d'.forked = d.forked
  waited : d'.waited = d.waited
  wait : waiting d' = waiting d

/-- what a step does to the children and to what the daemon knows of them -/
inductive Effect (d d' : Daemon) (a : Act) : Prop where
  | same (h : Same d d')
  | forked (brid : ℤ) (pid : ℕ) (h : Forked d d' brid pid)
  | fork_failed (brid : ℤ) (h : ForkFailed d d' brid) (ha : a = .mvdown none)
  | chld (pid : ℕ) (h : GotChld d d' pid)
  | reaped (k : Kid) (h : Reaped d d' k)
  | no_child (pid : ℕ) (h : NoChild d d' pid)
  | changed (k : Kid) (new : Life) (h : Changed d d' k new)
      (ha : (a = .child_exit k.pid ∧ new = .zombie) ∨ a = .child_stop k.pid ∨ a = .child_cont k.pid)

theorem load_same (d d' : Daemon) (r : LoadRes) (err : ℤ) (h : au_fhsmd_load d r = some (err, d')) :
    d'.in_ope = d.in_ope ∧ d'.sigchld = d.sigchld ∧ d'.kids = d.kids ∧ d'.forked = d.forked ∧
      d'.waited = d.waited := by
  unfold au_fhsmd_load at h
  split at h
  · cases h
    exact ⟨rfl, rfl, rfl, rfl, rfl⟩
  · dsimp only at h
    split_ifs at h
    · cases h
      exact ⟨rfl, rfl, rfl, rfl, rfl⟩
    · cases h
      exact ⟨rfl, rfl, rfl, rfl, rfl⟩
    · split at h <;> cases h <;> exact ⟨rfl, rfl, rfl, rfl, rfl⟩

/-- the daemon works on something else than its children -/
theorem effect_local {d d' : Daemon} {a : Act} (hin : d'.in_ope = d.in_ope) (hsig : d'.sigchld = d.sigchld)
    (hkids : d'.kids = d.kids) (hforked : d'.forked = d.forked) (hwaited : d'.waited = d.waited)
    (h : waiting d = none) (h' : waiting d' = none) : Effect d d' a :=
  .same ⟨hin, hsig, hkids, hforked, hwaited, h'.trans h.symm⟩

theorem handle_sig_effect {d d' : Daemon} {a : Act} {evs : List Ev} {r : SigRes} (hw : waiting d = none)
    (h : handle_sig d evs r = some d') : Effect d d' a := by
  cases r with
  | chld =>
    simp only [handle_sig] at h
    split at h
    · cases h
    · rename_i pid hp
      cases h
      exact .chld pid ⟨hp, hw, rfl, rfl, rfl, rfl, rfl, rfl⟩
  | _ =>
    cases h
    exact effect_local rfl rfl rfl rfl rfl hw rfl

theorem waitpid_effect {d d' : Daemon} {a : Act} {pid : ℕ} {evs : List Ev} (hw : waiting d = some pid)
    (h : waitpid d pid evs = some d') : Effect d d' a := by
  unfold waitpid at h
  split at h
  · rename_i hf
    cases h
    refine .no_child pid ⟨hw, ?_, rfl, rfl, rfl, rfl, rfl, rfl⟩
    intro k hk
    simpa using List.find?_eq_none.1 hf k hk
  · rename_i k hf
    have hpid : k.pid = pid := by simpa using List.find?_some hf
    split_ifs at h with hz
    cases h
    exact .reaped k ⟨by rw [hpid]; exact hw, List.mem_of_find?_eq_some hf, hz, rfl, rfl, by rw [hpid], rfl, rfl, rfl⟩

theorem handle_msg_effect (d : Daemon) (a : Act) (evs : List Ev) (r : MsgRes) (hw : waiting d = none) :
    Effect d (handle_msg d evs r) a := by
  cases r with
  | read r =>
    simp only [handle_msg]
    split
    · exact effect_local rfl rfl rfl rfl rfl hw rfl
    · rename_i err v hl
      obtain ⟨h1, h2, h3, h4, h5⟩ := load_same d v r err hl
      exact effect_local h1 h2 h3 h4 h5 hw rfl
  | exit =>
    simp only [handle_msg]
    split <;> exact effect_local rfl rfl rfl rfl rfl hw rfl
  | _ => exact effect_local rfl rfl rfl rfl rfl hw rfl

theorem handle_fhsm_effect (d : Daemon) (a : Act) (evs : List Ev) (r : FhsmRes) (hw : waiting d = none) :
    Effect d (handle_fhsm d evs r) a := by
  unfold handle_fhsm
  split_ifs
  · exact effect_local rfl rfl rfl rfl rfl hw rfl
  · cases r with
    | emsgsize r =>
      dsimp only
      split
      · exact effect_local rfl rfl rfl rfl rfl hw rfl
      · rename_i err v hl
        obtain ⟨h1, h2, h3, h4, h5⟩ := load_same d v r err hl
        split_ifs <;> exact effect_local h1 h2 h3 h4 h5 hw rfl
    | _ => exact effect_local rfl rfl rfl rfl rfl hw rfl

theorem au_mvdown_run_effect {d d' : Daemon} {brid : ℤ} {usage : Bool} {rest : List (ℤ × Bool)} {evs : List Ev}
    {fork : Option ℕ} (hpc : d.pc = .mvdown ((brid, usage) :: rest) evs)
    (h : au_mvdown_run d brid usage rest evs fork = some d') : Effect d d' (.mvdown fork) := by
  have hw : waiting d = none := by rw [waiting, hpc]
  unfold au_mvdown_run at h
  split_ifs at h with hl hu hany
  · cases h
    exact effect_local rfl rfl rfl rfl rfl hw rfl
  · cases h
    exact effect_local rfl rfl rfl rfl rfl hw rfl
  · cases h
    exact effect_local rfl rfl rfl rfl rfl hw rfl
  · have hbrid : ∀ e ∈ d.in_ope, e.brid ≠ brid := by
      intro e he heq
      exact hany (List.any_eq_true.2 ⟨e, he, by simpa using heq⟩)
    cases fork with
    | none =>
      cases h
      have hatt : attempts d = true := by
        have hl' : d.lcopy.isSome = true := by simpa [Option.isSome_iff_ne_none] using hl
        have hu' : usage = true := by simpa using hu
        have hany' : d.in_ope.any (·.brid = brid) = false := by simpa using hany
        rw [attempts, hpc]
        simp only [hl', hu', hany', Bool.not_false, Bool.and_self]
      exact .fork_failed brid ⟨⟨_, _, hpc⟩, hatt, hbrid, rfl, rfl, rfl, rfl, rfl, rfl⟩ rfl
    | some pid =>
      dsimp only at h
      split_ifs at h with hp
      cases h
      rw [not_or] at hp
      refine .forked brid pid
        ⟨⟨_, _, hpc⟩, hbrid, hp.1, ?_, rfl, rfl, rfl, rfl, rfl, rfl, rfl, rfl, rfl, rfl⟩
      intro k hk heq
      exact hp.2 (List.any_eq_true.2 ⟨k, hk, by simpa using heq⟩)

theorem child_changes_spec {d d' : Daemon} {pid : ℕ} {old : Life → Bool} {new : Life} (hold : old .zombie = false)
    (h : child_changes d pid old new = some d') : ∃ k, k.pid = pid ∧ Changed d d' k new := by
  unfold child_changes at h
  split at h
  · cases h
  · rename_i k hf
    have hpid : k.pid = pid := by simpa using List.find?_some hf
    split_ifs at h with ho
    cases h
    refine ⟨k, hpid, List.mem_of_find?_eq_some hf, fun hz => ?_, rfl, by rw [hpid]; rfl, by rw [hpid], rfl, rfl, rfl⟩
    rw [hz, hold] at ho
    simp at ho

theorem step_effect {d d' : Daemon} {a : Act} (h : step d a = some d') : Effect d d' a := by
  cases step_cases h with
  | loop hpc h =>
    subst h
    refine effect_local rfl rfl rfl rfl rfl (by rw [waiting, hpc]) ?_
    simp only [waiting]
    split_ifs <;> rfl
  | moved pc hw hw' _ h =>
    subst h
    exact effect_local rfl rfl rfl rfl rfl hw hw'
  | signal evs r hpc h => exact handle_sig_effect (by rw [waiting, hpc]) h
  | waitpid pid evs hpc h => exact waitpid_effect (by rw [waiting, hpc]) h
  | msg evs r hpc h =>
    subst h
    exact handle_msg_effect d _ evs r (by rw [waiting, hpc])
  | fhsm evs hpc h =>
    subst h
    refine effect_local rfl rfl rfl rfl rfl (by rw [waiting, hpc]) ?_
    simp only [waiting]
    split_ifs <;> rfl
  | read_fhsm evs r hpc h =>
    subst h
    exact handle_fhsm_effect d _ evs r (by rw [waiting, hpc])
  | mvdown brid usage rest evs fork ha hpc h =>
    rw [ha]
    exact au_mvdown_run_effect hpc h
  | child pid old new hold ha h =>
    obtain ⟨k, rfl, hc⟩ := child_changes_spec hold h
    exact .changed k new hc ha
  | child_loop pid h =>
    unfold child_loop at h
    split at h
    · cases h
    · split_ifs at h
      cases h
      exact .same ⟨rfl, rfl, rfl, rfl, rfl, rfl⟩

end AufsUtil.Fhsm
