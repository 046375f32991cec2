/-
The processes that publish the table: any number of controllers (`fhsm/aufhsm.c` main, `fhsm/fhsm.c`, `fhsm/shm.c`,
`fhsm/msg.c`) and the daemon (au_fhsmd_load) over the named shared memory.

shm_open(3) and fcntl(2) are two calls. Between them the memory of the name may be locked by another process, be empty
still because its creator has not locked it yet, or lose its name to a controller with --recreate. What is written then
goes to memory that nobody finds any more.

One run is `aufhsm_main`, taken apart at its system calls: one step is the part up to the lock, au_fhsm under the lock,
an argument, the signature, close(2), the message. The daemon's steps are those of au_fhsmd_load; the rest of
au_fhsmd_load is in `AufsUtil.Fhsm.Reload`. A process with the name open locks the whole file for writing; the lock goes
with close(2) or with the process. A controller that only sends EXIT is not looked at, and no process is killed.

- `Move`, `step_cases`: what a step can be.
- `CtlKeeps`, `DKeeps`: what a step does not touch.
-/
import Mathlib.Tactic
import AufsUtil.Lib.Runs
import AufsUtil.Fhsm.Control
import AufsUtil.Fhsm.Reload

namespace AufsUtil.Fhsm.Publish

open AufsUtil.CStr AufsUtil.SortSearch AufsUtil.Runs
open AufsUtil.Fhsm.Reload (LoadSys au_fhsm_load)

variable {F : Type}

/-! ## Processes -/

/-- what a controller is started with, the branches it finds and its system calls -/
structure Job where
  o : Opts
  sys : CtlSys
  brinfo : List Brinfo
  args : List Bytes

/-- do_notify -/
def Job.notify (j : Job) : Bool := j.o.recreate || !j.args.isEmpty

/-- where a controller is; the numbers are those of the memories it has open -/
inductive Pc where
  | idle
  /-- shm_open of au_shm_create -/
  | creating
  /-- shm_open of au_shm_map -/
  | mapping
  | locking (made : Bool) (id : ℕ)
  | locked (made : Bool) (id : ℕ)
  /-- with these arguments to do -/
  | working (id : ℕ) (rest : List Bytes)
  | signed (id : ℕ)
  /-- shm_unlink after an error in au_shm_create -/
  | cleaning
  | telling
  | over
deriving DecidableEq

/-- where the daemon is; `first` before the event loop -/
inductive DPc where
  | down
  | loading (first : Bool)
  | locking (first : Bool) (id : ℕ)
  | locked (first : Bool) (id : ℕ)
  | waiting
deriving DecidableEq

inductive Owner where
  | ctl (p : ℕ)
  | daemon
deriving DecidableEq

structure Sys (F : Type) where
  /-- the memory of the name -/
  name : Option ℕ
  next : ℕ
  /-- `none`: a file without a byte -/
  content : ℕ → Option (Aufhsm F)
  lock : ℕ → Option Owner
  job : ℕ → Job
  pc : ℕ → Pc
  dpc : DPc
  /-- the messages READ -/
  fifo : ℕ
  lcopy : Option (Aufhsm F)
  /-- history: the runs on a memory, and what the memory held if one ended in a fault -/
  log : ℕ → List (Job × Option (Aufhsm F))

inductive Act (F : Type) where
  | enter (p : ℕ) (j : Job)
  | create (p : ℕ) (ok : Bool)
  | map (p : ℕ) (ok : Bool)
  | lock (p : ℕ) (ok : Bool)
  | work (p : ℕ) (junk : Option (Aufhsm F))
  | arg (p : ℕ)
  | sign (p : ℕ)
  | close (p : ℕ) (ok : Bool)
  | clean (p : ℕ)
  | tell (p : ℕ) (ok : Bool)
  | dstart
  | dopen (ok : Bool)
  | dlock (ok : Bool)
  | dread (sys : LoadSys)
  | dmsg
  | dreload
  | dstop

/-! ## Steps -/

namespace Sys

def go (s : Sys F) (p : ℕ) (pc : Pc) : Sys F := { s with pc := Function.update s.pc p pc }

def put (s : Sys F) (id : ℕ) (c : Option (Aufhsm F)) : Sys F := { s with content := Function.update s.content id c }

def hold (s : Sys F) (id : ℕ) (o : Option Owner) : Sys F := { s with lock := Function.update s.lock id o }

/-- close(2), or the end of the process -/
def leave (s : Sys F) (p id : ℕ) (pc : Pc) : Sys F := (s.hold id none).go p pc

def note (s : Sys F) (id : ℕ) (e : Job × Option (Aufhsm F)) : Sys F :=
  { s with log := Function.update s.log id (s.log id ++ [e]) }

/-- au_fhsmd_load has failed: before the event loop the daemon ends, and with it what is in the fifo -/
def failed (s : Sys F) (first : Bool) : Sys F :=
  if first then { s with dpc := .down, fifo := 0, lcopy := none } else { s with dpc := .waiting, lcopy := none }

end Sys

section Step

variable (fl : Floats F) (qs : Qsort bridOrd (Wmark.brid (F := F))) (qp : Qsort strcmp Brinfo.path)
  (bp : Bsearch strcmp Brinfo.path)

/-- au_fhsm, with the lock, and what main does until the first argument -/
def work (s : Sys F) (p : ℕ) (made : Bool) (id : ℕ) (junk : Option (Aufhsm F)) : Sys F :=
  let j := s.job p
  -- mmap(2) of a file without a byte
  if !made && (s.content id).isNone then s.leave p id .over
  else
    let t := s.note id (j, junk)
    match au_fhsm fl qs j.sys.toShmSys (if made then none else s.content id) (au_nfhsm j.brinfo) j.brinfo with
    | .fault => (t.put id junk).leave p id .over
    | .fin shm => (t.put id shm).leave p id .over
    | .ret err shm =>
      if err ≠ 0 then (t.put id shm).leave p id (if made then .cleaning else .over)
      else if !j.sys.calloc || shm.isNone then (t.put id shm).leave p id .over
      else (t.put id shm).go p (.working id j.args)

/-- one argument, or AuFin -/
def arg (s : Sys F) (p id : ℕ) (str : Bytes) (rest : List Bytes) : Sys F :=
  match (s.content id).bind fun t => wmark fl bp (s.job p).o.inode str t (au_br_sort_path qp (s.job p).brinfo) with
  | none => s.leave p id .over
  | some t => (s.put id (some t)).go p (.working id rest)

def step (s : Sys F) : Act F → Option (Sys F)
  | .enter p j =>
    if s.pc p = .idle ∧ (j.o.recreate ∨ ¬j.o.kill) then
      let s := { s with
        job := Function.update s.job p j
        name := if j.o.recreate && j.sys.unlink then none else s.name }
      some (s.go p (if au_nfhsm j.brinfo < 2 then .over else .creating))
    else none
  | .create p ok =>
    if s.pc p = .creating then
      if !ok then some (s.go p .over)
      else
        match s.name with
        | some _ => some (s.go p .mapping)
        | none => some ({ s with name := some s.next, next := s.next + 1 }.go p (.locking true s.next))
    else none
  | .map p ok =>
    if s.pc p = .mapping then
      match s.name with
      | some id => some (s.go p (if ok then .locking false id else .over))
      | none => some (s.go p .over)
    else none
  | .lock p ok =>
    match s.pc p with
    | .locking made id =>
      if !ok then some (s.go p .over)
      else if s.lock id = none then some ((s.hold id (some (.ctl p))).go p (.locked made id))
      else none
    | _ => none
  | .work p junk =>
    match s.pc p with
    | .locked made id => some (work fl qs s p made id junk)
    | _ => none
  | .arg p =>
    match s.pc p with
    | .working id (str :: rest) => some (arg fl qp bp s p id str rest)
    | _ => none
  | .sign p =>
    match s.pc p with
    | .working id [] => some ((s.put id ((s.content id).map (au_fhsm_sign fl))).go p (.signed id))
    | _ => none
  | .close p ok =>
    match s.pc p with
    | .signed id => some (s.leave p id (if ok && (s.job p).notify then .telling else .over))
    | _ => none
  | .clean p => if s.pc p = .cleaning then some ({ s with name := none }.go p .over) else none
  | .tell p ok =>
    if s.pc p = .telling then
      -- what is written to a fifo that nobody has open is gone
      some ({ s with fifo := if ok && s.dpc != DPc.down then s.fifo + 1 else s.fifo }.go p .over)
    else none
  | .dstart => if s.dpc = .down then some { s with dpc := .loading true } else none
  | .dopen ok =>
    match s.dpc with
    | .loading first =>
      match s.name with
      | some id => some (if ok then { s with dpc := .locking first id } else s.failed first)
      | none => some (s.failed first)
    | _ => none
  | .dlock ok =>
    match s.dpc with
    | .locking first id =>
      if !ok then some (s.failed first)
      else if s.lock id = none then some { s.hold id (some .daemon) with dpc := .locked first id }
      else none
    | _ => none
  | .dread sys =>
    match s.dpc with
    | .locked first id =>
      match au_fhsm_load fl (s.content id) sys with
      | some t => some { s.hold id none with dpc := .waiting, lcopy := some t }
      | none => some ((s.hold id none).failed first)
    | _ => none
  | .dmsg => if s.dpc = .waiting ∧ 0 < s.fifo then some { s with dpc := .loading false, fifo := s.fifo - 1 } else none
  -- EMSGSIZE
  | .dreload => if s.dpc = .waiting then some { s with dpc := .loading false } else none
  | .dstop => if s.dpc = .waiting then some { s with dpc := .down, fifo := 0, lcopy := none } else none

/-- a table from before, or none -/
def Sys.init (shm : Option (Aufhsm F)) (j : ℕ → Job) : Sys F where
  name := shm.map fun _ => 0
  next := 1
  content id := if id = 0 then shm else none
  lock _ := none
  job := j
  pc _ := .idle
  dpc := .down
  fifo := 0
  lcopy := none
  log _ := []

/-! ## What a step can be -/

/-- the outcomes of a step -/
inductive Move (s : Sys F) : Act F → Sys F → Prop where
  | enter {p : ℕ} {j : Job} (hpc : s.pc p = .idle) (hrun : j.o.recreate ∨ ¬j.o.kill) :
    Move s (.enter p j) ({ s with
      job := Function.update s.job p j
      name := if j.o.recreate && j.sys.unlink then none else s.name }.go p
        (if au_nfhsm j.brinfo < 2 then .over else .creating))
  | uncreated {p : ℕ} (hpc : s.pc p = .creating) : Move s (.create p false) (s.go p .over)
  | taken {p id : ℕ} (hpc : s.pc p = .creating) (hname : s.name = some id) : Move s (.create p true) (s.go p .mapping)
  | made {p : ℕ} (hpc : s.pc p = .creating) (hname : s.name = none) :
    Move s (.create p true) ({ s with name := some s.next, next := s.next + 1 }.go p (.locking true s.next))
  | mapped {p id : ℕ} (hpc : s.pc p = .mapping) (hname : s.name = some id) :
    Move s (.map p true) (s.go p (.locking false id))
  | unmapped {p : ℕ} {ok : Bool} (hpc : s.pc p = .mapping) (hno : ok = true → s.name = none) :
    Move s (.map p ok) (s.go p .over)
  | unlocked {p id : ℕ} {made : Bool} (hpc : s.pc p = .locking made id) : Move s (.lock p false) (s.go p .over)
  | lock {p id : ℕ} {made : Bool} (hpc : s.pc p = .locking made id) (hfree : s.lock id = none) :
    Move s (.lock p true) ((s.hold id (some (.ctl p))).go p (.locked made id))
  | work {p id : ℕ} {made : Bool} {junk : Option (Aufhsm F)} (hpc : s.pc p = .locked made id) :
    Move s (.work p junk) (work fl qs s p made id junk)
  | arg {p id : ℕ} {str : Bytes} {rest : List Bytes} (hpc : s.pc p = .working id (str :: rest)) :
    Move s (.arg p) (arg fl qp bp s p id str rest)
  | sign {p id : ℕ} (hpc : s.pc p = .working id []) :
    Move s (.sign p) ((s.put id ((s.content id).map (au_fhsm_sign fl))).go p (.signed id))
  | close {p id : ℕ} {ok : Bool} (hpc : s.pc p = .signed id) :
    Move s (.close p ok) (s.leave p id (if ok && (s.job p).notify then .telling else .over))
  | clean {p : ℕ} (hpc : s.pc p = .cleaning) : Move s (.clean p) ({ s with name := none }.go p .over)
  | tell {p : ℕ} {ok : Bool} (hpc : s.pc p = .telling) :
    Move s (.tell p ok) ({ s with fifo := if ok && s.dpc != DPc.down then s.fifo + 1 else s.fifo }.go p .over)
  | dstart (hpc : s.dpc = .down) : Move s .dstart { s with dpc := .loading true }
  | dopen {first : Bool} {id : ℕ} (hpc : s.dpc = .loading first) (hname : s.name = some id) :
    Move s (.dopen true) { s with dpc := .locking first id }
  | unopened {first ok : Bool} (hpc : s.dpc = .loading first) (hno : ok = true → s.name = none) :
    Move s (.dopen ok) (s.failed first)
  | dlock {first : Bool} {id : ℕ} (hpc : s.dpc = .locking first id) (hfree : s.lock id = none) :
    Move s (.dlock true) { s.hold id (some .daemon) with dpc := .locked first id }
  | dunlocked {first : Bool} {id : ℕ} (hpc : s.dpc = .locking first id) : Move s (.dlock false) (s.failed first)
  | read {first : Bool} {id : ℕ} {sys : LoadSys} {t : Aufhsm F} (hpc : s.dpc = .locked first id)
      (hload : au_fhsm_load fl (s.content id) sys = some t) :
    Move s (.dread sys) { s.hold id none with dpc := .waiting, lcopy := some t }
  | unread {first : Bool} {id : ℕ} {sys : LoadSys} (hpc : s.dpc = .locked first id)
      (hload : au_fhsm_load fl (s.content id) sys = none) : Move s (.dread sys) ((s.hold id none).failed first)
  | dmsg (hpc : s.dpc = .waiting) (hfifo : 0 < s.fifo) :
    Move s .dmsg { s with dpc := .loading false, fifo := s.fifo - 1 }
  | dreload (hpc : s.dpc = .waiting) : Move s .dreload { s with dpc := .loading false }
  | dstop (hpc : s.dpc = .waiting) : Move s .dstop { s with dpc := .down, fifo := 0, lcopy := none }

end Step

section Moves

variable {fl : Floats F} {qs : Qsort bridOrd (Wmark.brid (F := F))} {qp : Qsort strcmp Brinfo.path}
  {bp : Bsearch strcmp Brinfo.path} {s t : Sys F}

/-- the calls of a controller that find something out -/
theorem create_cases {p : ℕ} {ok : Bool} (h : step fl qs qp bp s (.create p ok) = some t) :
    Move fl qs qp bp s (.create p ok) t := by
  rw [step] at h
  by_cases hpc : s.pc p = .creating
  · rw [if_pos hpc] at h
    cases ok with
    | false =>
      cases h
      exact .uncreated hpc
    | true =>
      cases hname : s.name with
      | some id =>
        rw [hname] at h
        cases h
        exact .taken hpc hname
      | none =>
        rw [hname] at h
        cases h
        exact .made hpc hname
  · rw [if_neg hpc] at h
    cases h

theorem map_cases {p : ℕ} {ok : Bool} (h : step fl qs qp bp s (.map p ok) = some t) :
    Move fl qs qp bp s (.map p ok) t := by
  rw [step] at h
  by_cases hpc : s.pc p = .mapping
  · rw [if_pos hpc] at h
    cases hname : s.name with
    | none =>
      rw [hname] at h
      cases h
      exact .unmapped hpc fun _ => hname
    | some id =>
      rw [hname] at h
      cases ok with
      | false =>
        cases h
        exact .unmapped hpc nofun
      | true =>
        cases h
        exact .mapped hpc hname
  · rw [if_neg hpc] at h
    cases h

theorem lock_cases {p : ℕ} {ok : Bool} (h : step fl qs qp bp s (.lock p ok) = some t) :
    Move fl qs qp bp s (.lock p ok) t := by
  rw [step] at h
  split at h
  · next made id hpc =>
    cases ok with
    | false =>
      cases h
      exact .unlocked hpc
    | true =>
      rw [if_neg (by decide)] at h
      split_ifs at h with hfree
      cases h
      exact .lock hpc hfree
  · cases h

/-- the calls of the daemon -/
theorem dopen_cases {ok : Bool} (h : step fl qs qp bp s (.dopen ok) = some t) : Move fl qs qp bp s (.dopen ok) t := by
  rw [step] at h
  split at h
  · next first hpc =>
    split at h
    · next id hname =>
      cases ok with
      | false =>
        cases h
        exact .unopened hpc nofun
      | true =>
        cases h
        exact .dopen hpc hname
    · next hname =>
      cases h
      exact .unopened hpc fun _ => hname
  · cases h

theorem dlock_cases {ok : Bool} (h : step fl qs qp bp s (.dlock ok) = some t) : Move fl qs qp bp s (.dlock ok) t := by
  rw [step] at h
  split at h
  · next first id hpc =>
    cases ok with
    | false =>
      cases h
      exact .dunlocked hpc
    | true =>
      rw [if_neg (by decide)] at h
      split_ifs at h with hfree
      cases h
      exact .dlock hpc hfree
  · cases h

theorem dread_cases {sys : LoadSys} (h : step fl qs qp bp s (.dread sys) = some t) :
    Move fl qs qp bp s (.dread sys) t := by
  rw [step] at h
  split at h
  · next first id hpc =>
    cases hload : au_fhsm_load fl (s.content id) sys with
    | none =>
      rw [hload] at h
      cases h
      exact .unread hpc hload
    | some t =>
      rw [hload] at h
      cases h
      exact .read hpc hload
  · cases h

/-- a step is one of these -/
theorem step_cases {a : Act F} (h : step fl qs qp bp s a = some t) : Move fl qs qp bp s a t := by
  cases a with
  | enter p j =>
    rw [step, Option.ite_none_right_eq_some] at h
    exact Option.some.inj h.2 ▸ .enter h.1.1 h.1.2
  | create p ok => exact create_cases h
  | map p ok => exact map_cases h
  | lock p ok => exact lock_cases h
  | work p junk =>
    rw [step] at h
    split at h
    · next made id hpc => exact Option.some.inj h ▸ .work hpc
    · cases h
  | arg p =>
    rw [step] at h
    split at h
    · next id str rest hpc => exact Option.some.inj h ▸ .arg hpc
    · cases h
  | sign p =>
    rw [step] at h
    split at h
    · next id hpc => exact Option.some.inj h ▸ .sign hpc
    · cases h
  | close p ok =>
    rw [step] at h
    split at h
    · next id hpc => exact Option.some.inj h ▸ .close hpc
    · cases h
  | clean p =>
    rw [step, Option.ite_none_right_eq_some] at h
    exact Option.some.inj h.2 ▸ .clean h.1
  | tell p ok =>
    rw [step, Option.ite_none_right_eq_some] at h
    exact Option.some.inj h.2 ▸ .tell h.1
  | dstart =>
    rw [step, Option.ite_none_right_eq_some] at h
    exact Option.some.inj h.2 ▸ .dstart h.1
  | dopen ok => exact dopen_cases h
  | dlock ok => exact dlock_cases h
  | dread sys => exact dread_cases h
  | dmsg =>
    rw [step, Option.ite_none_right_eq_some] at h
    exact Option.some.inj h.2 ▸ .dmsg h.1.1 h.1.2
  | dreload =>
    rw [step, Option.ite_none_right_eq_some] at h
    exact Option.some.inj h.2 ▸ .dreload h.1
  | dstop =>
    rw [step, Option.ite_none_right_eq_some] at h
    exact Option.some.inj h.2 ▸ .dstop h.1

/-! ## What a step does not touch -/

theorem go_pc (s : Sys F) (p : ℕ) (pc : Pc) : (s.go p pc).pc p = pc := by simp [Sys.go]

theorem go_pc_of_ne {q p : ℕ} (h : q ≠ p) (s : Sys F) (pc : Pc) : (s.go p pc).pc q = s.pc q := by simp [Sys.go, h]

/-- the controller that moves; `none` is the daemon -/
def Act.ctl : Act F → Option ℕ
  | .enter p _ | .create p _ | .map p _ | .lock p _ | .work p _ | .arg p | .sign p | .close p _ | .clean p
  | .tell p _ => some p
  | _ => none

structure CtlKeeps (p : ℕ) (s t : Sys F) : Prop where
  dpc : t.dpc = s.dpc
  lcopy : t.lcopy = s.lcopy
  pc : ∀ q, q ≠ p → t.pc q = s.pc q
  job : ∀ q, q ≠ p → t.job q = s.job q
  log : ∀ id, s.log id <+: t.log id

theorem CtlKeeps.trans {p : ℕ} {s t u : Sys F} (h : CtlKeeps p s t) (k : CtlKeeps p t u) : CtlKeeps p s u :=
  ⟨k.dpc.trans h.dpc, k.lcopy.trans h.lcopy, fun q hq => (k.pc q hq).trans (h.pc q hq),
    fun q hq => (k.job q hq).trans (h.job q hq), fun id => (h.log id).trans (k.log id)⟩

theorem go_keeps (s : Sys F) (p : ℕ) (pc : Pc) : CtlKeeps p s (s.go p pc) :=
  ⟨rfl, rfl, fun _ hq => go_pc_of_ne hq s pc, fun _ _ => rfl, fun _ => List.prefix_rfl⟩

theorem leave_keeps (s : Sys F) (p id : ℕ) (pc : Pc) : CtlKeeps p s (s.leave p id pc) :=
  ⟨rfl, rfl, fun _ hq => go_pc_of_ne hq _ pc, fun _ _ => rfl, fun _ => List.prefix_rfl⟩

theorem put_keeps (s : Sys F) (p id : ℕ) (c : Option (Aufhsm F)) : CtlKeeps p s (s.put id c) :=
  ⟨rfl, rfl, fun _ _ => rfl, fun _ _ => rfl, fun _ => List.prefix_rfl⟩

theorem note_keeps (s : Sys F) (p id : ℕ) (e : Job × Option (Aufhsm F)) : CtlKeeps p s (s.note id e) := by
  refine ⟨rfl, rfl, fun _ _ => rfl, fun _ _ => rfl, fun i => ?_⟩
  by_cases hi : i = id
  · rw [hi]
    simp [Sys.note]
  · simp [Sys.note, hi]

theorem work_keeps (fl : Floats F) (qs : Qsort bridOrd (Wmark.brid (F := F))) (s : Sys F) (p : ℕ) (made : Bool) (id : ℕ)
    (junk : Option (Aufhsm F)) : CtlKeeps p s (work fl qs s p made id junk) := by
  have hput : ∀ c, CtlKeeps p s ((s.note id (s.job p, junk)).put id c) := fun c =>
    (note_keeps s p id _).trans (put_keeps _ p id c)
  have hleave : ∀ c pc, CtlKeeps p s (((s.note id (s.job p, junk)).put id c).leave p id pc) := fun c pc =>
    (hput c).trans (leave_keeps _ p id pc)
  rw [work]
  by_cases hfound : (!made && (s.content id).isNone) = true
  · rw [if_pos hfound]
    exact leave_keeps s p id _
  · rw [if_neg hfound]
    dsimp only
    split
    · exact hleave _ _
    · exact hleave _ _
    · split
      · exact hleave _ _
      · split
        · exact hleave _ _
        · exact (hput _).trans (go_keeps _ p _)

theorem arg_keeps (s : Sys F) (p id : ℕ) (str : Bytes) (rest : List Bytes) :
    CtlKeeps p s (arg fl qp bp s p id str rest) := by
  rw [arg]
  split
  · exact leave_keeps s p _ _
  · exact (put_keeps s p _ _).trans (go_keeps _ p _)

theorem ctl_keeps {a : Act F} (h : step fl qs qp bp s a = some t) {p : ℕ} (ha : a.ctl = some p) : CtlKeeps p s t := by
  cases step_cases h with
  | enter hpc hrun =>
    cases ha
    exact ⟨rfl, rfl, fun q hq => go_pc_of_ne hq _ _, fun q hq => by simp [Sys.go, hq], fun _ => List.prefix_rfl⟩
  | uncreated hpc =>
    cases ha
    exact go_keeps s p _
  | taken hpc hname =>
    cases ha
    exact go_keeps s p _
  | made hpc hname =>
    cases ha
    exact ⟨rfl, rfl, fun q hq => go_pc_of_ne hq _ _, fun _ _ => rfl, fun _ => List.prefix_rfl⟩
  | mapped hpc hname =>
    cases ha
    exact go_keeps s p _
  | unmapped hpc hno =>
    cases ha
    exact go_keeps s p _
  | unlocked hpc =>
    cases ha
    exact go_keeps s p _
  | lock hpc hfree =>
    cases ha
    exact ⟨rfl, rfl, fun q hq => go_pc_of_ne hq _ _, fun _ _ => rfl, fun _ => List.prefix_rfl⟩
  | work hpc =>
    cases ha
    exact work_keeps fl qs s p _ _ _
  | arg hpc =>
    cases ha
    exact arg_keeps s p _ _ _
  | sign hpc =>
    cases ha
    exact (put_keeps s p _ _).trans (go_keeps _ p _)
  | close hpc =>
    cases ha
    exact leave_keeps s p _ _
  | clean hpc =>
    cases ha
    exact ⟨rfl, rfl, fun q hq => go_pc_of_ne hq _ _, fun _ _ => rfl, fun _ => List.prefix_rfl⟩
  | tell hpc =>
    cases ha
    exact ⟨rfl, rfl, fun q hq => go_pc_of_ne hq _ _, fun _ _ => rfl, fun _ => List.prefix_rfl⟩
  | _ => cases ha

structure DKeeps (s t : Sys F) : Prop where
  name : t.name = s.name
  next : t.next = s.next
  content : t.content = s.content
  job : t.job = s.job
  pc : t.pc = s.pc
  log : t.log = s.log

theorem failed_keeps (s : Sys F) (first : Bool) : DKeeps s (s.failed first) := by
  cases first <;> exact ⟨rfl, rfl, rfl, rfl, rfl, rfl⟩

theorem daemon_keeps {a : Act F} (h : step fl qs qp bp s a = some t) (ha : a.ctl = none) : DKeeps s t := by
  cases step_cases h with
  | dstart | dopen | dlock | read | dmsg | dreload | dstop => exact ⟨rfl, rfl, rfl, rfl, rfl, rfl⟩
  | unopened hpc hno => exact failed_keeps s _
  | dunlocked hpc => exact failed_keeps s _
  | unread hpc hload => exact { failed_keeps (s.hold _ none) _ with }
  | _ => cases ha

end Moves

/-! ## Two controllers and the daemon -/

/-- `--recreate` -/
def new_job : Job := ⟨⟨false, true, false⟩, ⟨allOk, true, true⟩, twoFhsm, []⟩

/-- `50-25` -/
def arg_job : Job := ⟨⟨false, false, false⟩, ⟨allOk, true, true⟩, twoFhsm, [[53, 48, 45, 50, 53]]⟩

def load_ok : LoadSys := ⟨⟨⟨true, true, true⟩, true, true⟩, true, true, true⟩

/-- the second controller opens what the first one has made and waits for the lock -/
def two_acts : List (Act ℚ) :=
  [.enter 0 new_job, .create 0 true, .enter 1 arg_job, .create 1 true, .map 1 true, .lock 0 true, .work 0 none, .sign 0,
    .close 0 true, .dstart, .dopen true, .lock 1 true, .work 1 none, .tell 0 true, .arg 1, .sign 1, .close 1 true,
    .dlock true, .dread load_ok, .dmsg, .dopen true, .dlock true, .dread load_ok, .tell 1 true, .dmsg, .dopen true,
    .dlock true, .dread load_ok]

abbrev two_step := step ratFloats bridSort pathSort pathSearch

abbrev two_init : Sys ℚ := Sys.init none fun _ => new_job

theorem run_idle {fl : Floats F} {qs : Qsort bridOrd (Wmark.brid (F := F))} {qp : Qsort strcmp Brinfo.path}
    {bp : Bsearch strcmp Brinfo.path} {s t : Sys F} {acts : List (Act F)} {p : ℕ} (hp : ∀ a ∈ acts, a.ctl ≠ some p)
    (h : exec (step fl qs qp bp) s acts = some t) : t.pc p = s.pc p := by
  refine exec_invariant_of _ (fun a => a.ctl ≠ some p) (fun t => t.pc p = s.pc p) (fun u a v ha hu hstep => ?_) hp rfl h
  cases hctl : a.ctl with
  | none => rw [(daemon_keeps hstep hctl).pc, hu]
  | some q => rw [(ctl_keeps hstep hctl).pc p fun heq => ha (heq ▸ hctl), hu]

/-- a run that can be made ends in a state with what it computes -/
theorem exec_any {acts : List (Act ℚ)} {s : Sys ℚ} {P : Sys ℚ → Prop} [DecidablePred P]
    (h : (exec two_step s acts).any (fun t => decide (P t)) = true) : ∃ t, exec two_step s acts = some t ∧ P t := by
  obtain ⟨t, ht, hP⟩ := (Option.any_eq_true _ _).1 h
  exact ⟨t, ht, of_decide_eq_true hP⟩

theorem two_run : ∃ s, exec two_step two_init two_acts = some s ∧ s.dpc = .waiting ∧ s.fifo = 0 ∧ s.pc 0 = .over ∧
    s.pc 1 = .over ∧ s.lock 1 = none ∧ s.name = some 1 ∧ (s.log 1).length = 2 ∧ s.lcopy.isSome = true :=
  exec_any (by decide +kernel)

end AufsUtil.Fhsm.Publish
