/-
The requests of uloop: transfers of the driver (`sample/uloop/drivers/block/uloop.c`) and the processes that fill the
cache for them (`sample/uloop/libuloop.c`, ulo_loop; `ulobdev.c` and `ulohttp.c`, store).

A process puts itself into the queue READY and waits for its signal. A transfer that finds the bit of its page not set
takes a process from READY, puts the request into RCVREQ and sends the signal; the process takes a request from RCVREQ,
fills the cache and puts the request into SNDRES, where the transfer waits for it. Whatever it finds there that is not
its own goes back to the end. Then the transfer sets the bit.

- `Sys`, `step`: any number of transfers and processes. What one of them does under a spinlock or under bmpmtx is one
  step, and the steps of all of them come in any order.
- `Xfer.step_cases`, `Daemon.step_cases`: what a step can be.

A transfer may be interrupted while it waits, a process may end at any point, its signal may come from elsewhere, and
the I/O for the bitmap may fail. raw_page of uloop_xfer is the page of the cache itself, which store maps. The ctl of an
element has its size, an int, in a request only. kill_pid finds no process that has ended, so nothing is modelled of one
that stays a zombie; and kmem_cache_alloc finds memory (it returns NULL otherwise, which IS_ERR does not see).
-/
import Mathlib.Tactic
import AufsUtil.Lib.Runs
import AufsUtil.Uloop.Restore
import AufsUtil.Uloop.Sizes

namespace AufsUtil.Uloop.Requests

open AufsUtil.CStr AufsUtil.Bitmap AufsUtil.Runs

/-! ## The image and its cache -/

/-- what ulo_init is called for, and what there is to be read -/
structure Image where
  PAGE_SIZE : ℕ
  pos : 0 < PAGE_SIZE
  /-- a bit of a page of the bitmap is an int -/
  bits : bmp_page_bytes PAGE_SIZE ≤ 2 ^ 31
  tgt_size : ℕ
  real : ℕ → UInt8

def Image.cache_size (img : Image) : ℕ := round_up img.tgt_size img.PAGE_SIZE

/-- what store copies: where, and how much; `none` is the assertion, or mmap(2) with a size that is not positive -/
def Image.store (img : Image) (start size : ℕ) : Option (ℕ × ℕ) :=
  if img.cache_size < start + size then none
  else
    let m := start % img.PAGE_SIZE
    let start := start - m
    let size : ℤ := size + m
    let size := if img.tgt_size < start + size then (img.tgt_size : ℤ) - start else size
    if size ≤ 0 then none else some (start, size.toNat)

/-- some of the bytes of a range are copied -/
def Image.copy (img : Image) (cache : ℕ → UInt8) (range : ℕ × ℕ) (written : ℕ → Bool) (i : ℕ) : UInt8 :=
  if range.1 ≤ i ∧ i < range.1 + range.2 ∧ written i = true then img.real i else cache i

/-! ## The parties -/

def ESRCH : ℤ := 3

def ERESTARTSYS : ℤ := 512

/-- the ctl of an element of RCVREQ or SNDRES -/
structure Req where
  start : ℕ
  size : ℕ
deriving DecidableEq, Repr

inductive Xfer.Pc where
  /-- while (sz > 0) -/
  | test
  /-- ulo_wait(dev, UloQ_READY) -/
  | ready
  /-- the element of this process is taken -/
  | post (pid : ℕ)
  | kill (pid : ℕ)
  /-- ulo_wait(dev, UloQ_SNDRES) -/
  | sndres
  /-- this is not what I want. return it -/
  | back (e : Req)
  /-- set bitmap -/
  | mark
  | done (err : ℤ)
deriving DecidableEq, Repr

/-- a call of uloop_xfer, and what it has put into loop_buf -/
structure Xfer where
  start : ℕ
  size : ℕ
  pos : ℕ
  /-- sz, which is not positive at the end -/
  sz : ℕ
  pc : Xfer.Pc
  loop_buf : Option Bytes
deriving DecidableEq, Repr

def Xfer.init (start size : ℕ) : Xfer := ⟨start, size, start, size, .test, none⟩

inductive Daemon.Pc where
  /-- ULOCTL_READY -/
  | top
  /-- sigwaitinfo(2) -/
  | wait
  /-- ULOCTL_RCVREQ -/
  | woken
  | store (e : Req)
  /-- ULOCTL_SNDRES -/
  | answer (e : Req)
  | dead
deriving DecidableEq, Repr

/-- a process in ulo_loop; the signal is a standard one, of which one instance can be pending -/
structure Daemon where
  pc : Daemon.Pc
  pending : Bool
deriving DecidableEq, Repr

structure Sys where
  dev : Dev
  ready : List ℕ
  rcvreq : List Req
  sndres : List Req
  cache : ℕ → UInt8
  xfers : List Xfer
  daemons : List Daemon

/-! ## Transfers -/

/-- loff of uloop_xfer -/
def Xfer.loff (P : ℕ) (x : Xfer) : ℕ := x.pos / P

def Xfer.pindex (P : ℕ) (x : Xfer) : ℕ := pindex_of P (x.loff P)

def Xfer.bit (P : ℕ) (x : Xfer) : ℕ := (bit_of P (x.loff P)).toNat

/-- the next page of the loop -/
def Xfer.next (P : ℕ) (x : Xfer) : Xfer := { x with pos := x.pos + P, sz := x.sz - P, pc := .test }

def Xfer.req (P : ℕ) (x : Xfer) : Req := ⟨x.pos, P⟩

/-- `none` is a process that is gone -/
def Sys.kill_pid (s : Sys) (pid : ℕ) : Option Sys :=
  match s.daemons[pid]? with
  | none => none
  | some w => if w.pc = .dead then none else some { s with daemons := s.daemons.set pid { w with pending := true } }

inductive XAct where
  | go (io : Io)
  | interrupt

def Xfer.step (P : ℕ) (s : Sys) (x : Xfer) : XAct → Option (Sys × Xfer)
  | .go io =>
    match x.pc with
    | .test =>
      if x.sz = 0 then
        some (s, { x with pc := .done 0, loop_buf := some ((List.range x.size).map fun k => s.cache (x.start + k)) })
      else
        let r := uloop_xfer_test P s.dev (x.pindex P) (x.bit P) io
        r.1.err.map fun err =>
          ({ s with dev := r.1.dev },
            if err ≠ 0 then { x with pc := .done err } else if r.2 then x.next P else { x with pc := .ready })
    | .ready =>
      match s.ready with
      | [] => none
      | pid :: rest => some ({ s with ready := rest }, { x with pc := .post pid })
    | .post pid => some ({ s with rcvreq := s.rcvreq ++ [x.req P] }, { x with pc := .kill pid })
    | .kill pid =>
      match s.kill_pid pid with
      | none => some (s, { x with pc := .done (- ESRCH) })
      | some s' => some (s', { x with pc := .sndres })
    | .sndres =>
      match s.sndres with
      | [] => none
      | e :: rest => some ({ s with sndres := rest }, { x with pc := if e = x.req P then .mark else .back e })
    | .back e => some ({ s with sndres := s.sndres ++ [e] }, { x with pc := .sndres })
    | .mark =>
      let r := ulo_xfer_end_set P s.dev (x.pindex P) (x.bit P) io
      r.err.map fun err => ({ s with dev := r.dev }, if err ≠ 0 then { x with pc := .done err } else x.next P)
    | .done _ => none
  | .interrupt =>
    if x.pc = .ready ∨ x.pc = .sndres then some (s, { x with pc := .done (- ERESTARTSYS) }) else none

/-! ## Processes -/

inductive DAct where
  | go
  /-- store copies some of the bytes -/
  | part (written : ℕ → Bool)
  /-- copy_to_user fails for ULOCTL_RCVREQ -/
  | efault
  /-- a system call or store fails, or the process is killed -/
  | die
  /-- its signal comes from somewhere else -/
  | stray

def Daemon.step (img : Image) (s : Sys) (pid : ℕ) (w : Daemon) : DAct → Option (Sys × Daemon)
  | .go =>
    match w.pc with
    | .top => some ({ s with ready := s.ready ++ [pid] }, { w with pc := .wait })
    | .wait => if w.pending then some (s, ⟨.woken, false⟩) else none
    | .woken =>
      match s.rcvreq with
      | [] => some (s, { w with pc := .dead })
      | e :: rest => some ({ s with rcvreq := rest }, { w with pc := .store e })
    | .store e =>
      match img.store e.start e.size with
      | none => some (s, { w with pc := .dead })
      | some range => some ({ s with cache := img.copy s.cache range fun _ => true }, { w with pc := .answer e })
    | .answer e => some ({ s with sndres := s.sndres ++ [e] }, { w with pc := .top })
    | .dead => none
  | .part written =>
    match w.pc with
    | .store e => (img.store e.start e.size).map fun range => ({ s with cache := img.copy s.cache range written }, w)
    | _ => none
  | .efault =>
    match w.pc, s.rcvreq with
    | .woken, e :: rest => some ({ s with rcvreq := rest ++ [e] }, { w with pc := .dead })
    | _, _ => none
  | .die => if w.pc = .dead then none else some (s, { w with pc := .dead })
  | .stray => if w.pc = .dead then none else some (s, { w with pending := true })

/-! ## All of them -/

inductive Act where
  /-- the device is read -/
  | enter (start size : ℕ)
  /-- a process calls ulo_loop -/
  | spawn
  | xfer (i : ℕ) (a : XAct)
  | daemon (pid : ℕ) (a : DAct)

def step (img : Image) (s : Sys) : Act → Option Sys
  | .enter start size => some { s with xfers := s.xfers ++ [.init start size] }
  | .spawn => some { s with daemons := s.daemons ++ [⟨.top, false⟩] }
  | .xfer i a =>
    match s.xfers[i]? with
    | none => none
    | some x => (x.step img.PAGE_SIZE s a).map fun r => { r.1 with xfers := r.1.xfers.set i r.2 }
  | .daemon pid a =>
    match s.daemons[pid]? with
    | none => none
    | some w => (w.step img s pid a).map fun r => { r.1 with daemons := r.1.daemons.set pid r.2 }

/-! ## What a step can be -/

variable {P : ℕ} {s s' : Sys}

inductive XMove (P : ℕ) (s : Sys) (x : Xfer) : XAct → Sys → Xfer → Prop where
  | copy {io : Io} (hpc : x.pc = .test) (hsz : x.sz = 0) :
    XMove P s x (.go io) s
      { x with pc := .done 0, loop_buf := some ((List.range x.size).map fun k => s.cache (x.start + k)) }
  | hit {io : Io} (hpc : x.pc = .test) (hsz : x.sz ≠ 0)
      (herr : (uloop_xfer_test P s.dev (x.pindex P) (x.bit P) io).1.err = some 0)
      (hset : (uloop_xfer_test P s.dev (x.pindex P) (x.bit P) io).2 = true) :
    XMove P s x (.go io) { s with dev := (uloop_xfer_test P s.dev (x.pindex P) (x.bit P) io).1.dev } (x.next P)
  | miss {io : Io} (hpc : x.pc = .test) (hsz : x.sz ≠ 0)
      (herr : (uloop_xfer_test P s.dev (x.pindex P) (x.bit P) io).1.err = some 0)
      (hset : (uloop_xfer_test P s.dev (x.pindex P) (x.bit P) io).2 = false) :
    XMove P s x (.go io) { s with dev := (uloop_xfer_test P s.dev (x.pindex P) (x.bit P) io).1.dev }
      { x with pc := .ready }
  | untested {io : Io} {err : ℤ} (hpc : x.pc = .test) (hsz : x.sz ≠ 0) (hne : err ≠ 0)
      (herr : (uloop_xfer_test P s.dev (x.pindex P) (x.bit P) io).1.err = some err) :
    XMove P s x (.go io) { s with dev := (uloop_xfer_test P s.dev (x.pindex P) (x.bit P) io).1.dev }
      { x with pc := .done err }
  | take {io : Io} {pid : ℕ} {rest : List ℕ} (hpc : x.pc = .ready) (hq : s.ready = pid :: rest) :
    XMove P s x (.go io) { s with ready := rest } { x with pc := .post pid }
  | post {io : Io} {pid : ℕ} (hpc : x.pc = .post pid) :
    XMove P s x (.go io) { s with rcvreq := s.rcvreq ++ [x.req P] } { x with pc := .kill pid }
  | signal {io : Io} {pid : ℕ} {w : Daemon} (hpc : x.pc = .kill pid) (hw : s.daemons[pid]? = some w)
      (hlive : w.pc ≠ .dead) :
    XMove P s x (.go io) { s with daemons := s.daemons.set pid { w with pending := true } } { x with pc := .sndres }
  | gone {io : Io} {pid : ℕ} (hpc : x.pc = .kill pid) (hgone : ∀ w, s.daemons[pid]? = some w → w.pc = .dead) :
    XMove P s x (.go io) s { x with pc := .done (- ESRCH) }
  | mine {io : Io} {rest : List Req} (hpc : x.pc = .sndres) (hq : s.sndres = x.req P :: rest) :
    XMove P s x (.go io) { s with sndres := rest } { x with pc := .mark }
  | other {io : Io} {e : Req} {rest : List Req} (hpc : x.pc = .sndres) (hq : s.sndres = e :: rest)
      (hne : e ≠ x.req P) :
    XMove P s x (.go io) { s with sndres := rest } { x with pc := .back e }
  | back {io : Io} {e : Req} (hpc : x.pc = .back e) :
    XMove P s x (.go io) { s with sndres := s.sndres ++ [e] } { x with pc := .sndres }
  | mark {io : Io} (hpc : x.pc = .mark)
      (herr : (ulo_xfer_end_set P s.dev (x.pindex P) (x.bit P) io).err = some 0) :
    XMove P s x (.go io) { s with dev := (ulo_xfer_end_set P s.dev (x.pindex P) (x.bit P) io).dev } (x.next P)
  | unmarked {io : Io} {err : ℤ} (hpc : x.pc = .mark) (hne : err ≠ 0)
      (herr : (ulo_xfer_end_set P s.dev (x.pindex P) (x.bit P) io).err = some err) :
    XMove P s x (.go io) { s with dev := (ulo_xfer_end_set P s.dev (x.pindex P) (x.bit P) io).dev }
      { x with pc := .done err }
  | interrupt (hpc : x.pc = .ready ∨ x.pc = .sndres) : XMove P s x .interrupt s { x with pc := .done (- ERESTARTSYS) }

theorem Xfer.step_cases {x x' : Xfer} {a : XAct} (h : x.step P s a = some (s', x')) : XMove P s x a s' x' := by
  cases a with
  | interrupt =>
    rw [Xfer.step] at h
    split_ifs at h with hpc
    obtain ⟨rfl, rfl⟩ := Prod.mk.inj (Option.some.inj h)
    exact .interrupt hpc
  | go io =>
    rw [Xfer.step] at h
    cases hpc : x.pc with
    | test =>
      simp only [hpc] at h
      by_cases hsz : x.sz = 0
      · rw [if_pos hsz] at h
        obtain ⟨rfl, rfl⟩ := Prod.mk.inj (Option.some.inj h)
        exact .copy hpc hsz
      · rw [if_neg hsz] at h
        obtain ⟨err, herr, h⟩ := Option.map_eq_some_iff.1 h
        obtain ⟨rfl, rfl⟩ := Prod.mk.inj h
        by_cases hzero : err = 0
        · rw [hzero] at herr
          rw [if_neg (not_not.2 hzero)]
          cases hset : (uloop_xfer_test P s.dev (x.pindex P) (x.bit P) io).2 with
          | true => exact .hit hpc hsz herr hset
          | false => exact .miss hpc hsz herr hset
        · rw [if_pos hzero]
          exact .untested hpc hsz hzero herr
    | ready =>
      cases hq : s.ready with
      | nil => simp only [hpc, hq, reduceCtorEq] at h
      | cons pid rest =>
        simp only [hpc, hq] at h
        obtain ⟨rfl, rfl⟩ := Prod.mk.inj (Option.some.inj h)
        exact .take hpc hq
    | post pid =>
      simp only [hpc] at h
      obtain ⟨rfl, rfl⟩ := Prod.mk.inj (Option.some.inj h)
      exact .post hpc
    | kill pid =>
      simp only [hpc] at h
      cases hw : s.daemons[pid]? with
      | none =>
        simp only [Sys.kill_pid, hw] at h
        obtain ⟨rfl, rfl⟩ := Prod.mk.inj (Option.some.inj h)
        exact .gone hpc fun w hw' => by rw [hw] at hw'; cases hw'
      | some w =>
        simp only [Sys.kill_pid, hw] at h
        by_cases hdead : w.pc = .dead
        · simp only [if_pos hdead] at h
          obtain ⟨rfl, rfl⟩ := Prod.mk.inj (Option.some.inj h)
          exact .gone hpc fun w' hw' => by rw [hw] at hw'; exact Option.some.inj hw' ▸ hdead
        · simp only [if_neg hdead] at h
          obtain ⟨rfl, rfl⟩ := Prod.mk.inj (Option.some.inj h)
          exact .signal hpc hw hdead
    | sndres =>
      cases hq : s.sndres with
      | nil => simp only [hpc, hq, reduceCtorEq] at h
      | cons e rest =>
        simp only [hpc, hq] at h
        obtain ⟨rfl, rfl⟩ := Prod.mk.inj (Option.some.inj h)
        split_ifs with he
        · exact .mine hpc (he ▸ hq)
        · exact .other hpc hq he
    | back e =>
      simp only [hpc] at h
      obtain ⟨rfl, rfl⟩ := Prod.mk.inj (Option.some.inj h)
      exact .back hpc
    | mark =>
      simp only [hpc] at h
      obtain ⟨err, herr, h⟩ := Option.map_eq_some_iff.1 h
      obtain ⟨rfl, rfl⟩ := Prod.mk.inj h
      by_cases hzero : err = 0
      · rw [hzero] at herr
        rw [if_neg (not_not.2 hzero)]
        exact .mark hpc herr
      · rw [if_pos hzero]
        exact .unmarked hpc hzero herr
    | done err => simp only [hpc, reduceCtorEq] at h

inductive DMove (img : Image) (s : Sys) (pid : ℕ) (w : Daemon) : DAct → Sys → Daemon → Prop where
  | ready (hpc : w.pc = .top) : DMove img s pid w .go { s with ready := s.ready ++ [pid] } { w with pc := .wait }
  | wake (hpc : w.pc = .wait) (hsig : w.pending = true) : DMove img s pid w .go s ⟨.woken, false⟩
  | enxio (hpc : w.pc = .woken) (hq : s.rcvreq = []) : DMove img s pid w .go s { w with pc := .dead }
  | rcvreq {e : Req} {rest : List Req} (hpc : w.pc = .woken) (hq : s.rcvreq = e :: rest) :
    DMove img s pid w .go { s with rcvreq := rest } { w with pc := .store e }
  | unstored {e : Req} (hpc : w.pc = .store e) (hstore : img.store e.start e.size = none) :
    DMove img s pid w .go s { w with pc := .dead }
  | stored {e : Req} {range : ℕ × ℕ} (hpc : w.pc = .store e) (hstore : img.store e.start e.size = some range) :
    DMove img s pid w .go { s with cache := img.copy s.cache range fun _ => true } { w with pc := .answer e }
  | sndres {e : Req} (hpc : w.pc = .answer e) :
    DMove img s pid w .go { s with sndres := s.sndres ++ [e] } { w with pc := .top }
  | part {e : Req} {range : ℕ × ℕ} {written : ℕ → Bool} (hpc : w.pc = .store e)
      (hstore : img.store e.start e.size = some range) :
    DMove img s pid w (.part written) { s with cache := img.copy s.cache range written } w
  | efault {e : Req} {rest : List Req} (hpc : w.pc = .woken) (hq : s.rcvreq = e :: rest) :
    DMove img s pid w .efault { s with rcvreq := rest ++ [e] } { w with pc := .dead }
  | die (hpc : w.pc ≠ .dead) : DMove img s pid w .die s { w with pc := .dead }
  | stray (hpc : w.pc ≠ .dead) : DMove img s pid w .stray s { w with pending := true }

theorem Daemon.step_cases {img : Image} {pid : ℕ} {w w' : Daemon} {a : DAct}
    (h : w.step img s pid a = some (s', w')) : DMove img s pid w a s' w' := by
  cases a with
  | go =>
    rw [Daemon.step] at h
    cases hpc : w.pc with
    | top =>
      simp only [hpc] at h
      obtain ⟨rfl, rfl⟩ := Prod.mk.inj (Option.some.inj h)
      exact .ready hpc
    | wait =>
      simp only [hpc] at h
      split_ifs at h with hsig
      obtain ⟨rfl, rfl⟩ := Prod.mk.inj (Option.some.inj h)
      exact .wake hpc hsig
    | woken =>
      cases hq : s.rcvreq with
      | nil =>
        simp only [hpc, hq] at h
        obtain ⟨rfl, rfl⟩ := Prod.mk.inj (Option.some.inj h)
        exact .enxio hpc hq
      | cons e rest =>
        simp only [hpc, hq] at h
        obtain ⟨rfl, rfl⟩ := Prod.mk.inj (Option.some.inj h)
        exact .rcvreq hpc hq
    | store e =>
      cases hstore : img.store e.start e.size with
      | none =>
        simp only [hpc, hstore] at h
        obtain ⟨rfl, rfl⟩ := Prod.mk.inj (Option.some.inj h)
        exact .unstored hpc hstore
      | some range =>
        simp only [hpc, hstore] at h
        obtain ⟨rfl, rfl⟩ := Prod.mk.inj (Option.some.inj h)
        exact .stored hpc hstore
    | answer e =>
      simp only [hpc] at h
      obtain ⟨rfl, rfl⟩ := Prod.mk.inj (Option.some.inj h)
      exact .sndres hpc
    | dead => simp only [hpc, reduceCtorEq] at h
  | part written =>
    rw [Daemon.step] at h
    cases hpc : w.pc with
    | store e =>
      simp only [hpc] at h
      obtain ⟨range, hstore, h⟩ := Option.map_eq_some_iff.1 h
      obtain ⟨rfl, rfl⟩ := Prod.mk.inj h
      exact .part hpc hstore
    | _ => simp only [hpc, reduceCtorEq] at h
  | efault =>
    rw [Daemon.step] at h
    cases hpc : w.pc with
    | woken =>
      cases hq : s.rcvreq with
      | nil => simp only [hpc, hq, reduceCtorEq] at h
      | cons e rest =>
        simp only [hpc, hq] at h
        obtain ⟨rfl, rfl⟩ := Prod.mk.inj (Option.some.inj h)
        exact .efault hpc hq
    | _ => simp only [hpc, reduceCtorEq] at h
  | die =>
    rw [Daemon.step] at h
    split_ifs at h with hpc
    obtain ⟨rfl, rfl⟩ := Prod.mk.inj (Option.some.inj h)
    exact .die hpc
  | stray =>
    rw [Daemon.step] at h
    split_ifs at h with hpc
    obtain ⟨rfl, rfl⟩ := Prod.mk.inj (Option.some.inj h)
    exact .stray hpc

/-- **A step of the whole** is a transfer or a process that comes in addition, or a step of one that is there. -/
inductive Moves (img : Image) (s : Sys) : Act → Sys → Prop where
  | enter {start size : ℕ} : Moves img s (.enter start size) { s with xfers := s.xfers ++ [.init start size] }
  | spawn : Moves img s .spawn { s with daemons := s.daemons ++ [⟨.top, false⟩] }
  | xfer {i : ℕ} {a : XAct} {x x' : Xfer} {s' : Sys} (hx : s.xfers[i]? = some x)
      (hmove : XMove img.PAGE_SIZE s x a s' x') : Moves img s (.xfer i a) { s' with xfers := s'.xfers.set i x' }
  | daemon {pid : ℕ} {a : DAct} {w w' : Daemon} {s' : Sys} (hw : s.daemons[pid]? = some w)
      (hmove : DMove img s pid w a s' w') :
    Moves img s (.daemon pid a) { s' with daemons := s'.daemons.set pid w' }

theorem step_cases {img : Image} {a : Act} {t : Sys} (h : step img s a = some t) : Moves img s a t := by
  cases a with
  | enter start size =>
    obtain rfl := Option.some.inj h
    exact .enter
  | spawn =>
    obtain rfl := Option.some.inj h
    exact .spawn
  | xfer i a =>
    rw [step] at h
    cases hx : s.xfers[i]? with
    | none => simp only [hx, reduceCtorEq] at h
    | some x =>
      simp only [hx] at h
      obtain ⟨⟨s', x'⟩, hmove, rfl⟩ := Option.map_eq_some_iff.1 h
      exact .xfer hx (Xfer.step_cases hmove)
  | daemon pid a =>
    rw [step] at h
    cases hw : s.daemons[pid]? with
    | none => simp only [hw, reduceCtorEq] at h
    | some w =>
      simp only [hw] at h
      obtain ⟨⟨s', w'⟩, hmove, rfl⟩ := Option.map_eq_some_iff.1 h
      exact .daemon hw (Daemon.step_cases hmove)

end AufsUtil.Uloop.Requests
