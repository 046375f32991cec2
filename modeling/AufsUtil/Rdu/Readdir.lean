/-
Directory streams over the table of readdir slots (`libau/rdu.c`, `libau/rdu_lib.c`).

Every aufs stream that was read has a slot (struct rdu) in one table, found by its file descriptor. A slot holds the
merged listing that rdu_init took; a read at position 0, or of a slot without entries, takes a new one. closedir frees
the slot but keeps it in the table, with its npos, for the next stream without a slot; the table grows by RDU_STEP.

`streams_independent`: in every run of opendir, reads, telldir, seekdir, rewinddir and closedir on any number of streams
in which no call fails, a read of a stream at position k gives entry k of the listing taken by the last rdu_init made
for that stream, or the end exactly if there is no entry k, and moves the stream to k + 1; the other streams play no
part. The invariant (`Inv`): the first slot with the descriptor of a stream that was read holds this stream's listing.
What a call may do is said once, in `step_cases`; how a read ends in `rdu_readdir_cases`; what rdu_buf_lock may do in
`rdu_buf_lock_cases`.

What the model keeps of C:
- every allocation and system call may fail (`ReadEnv`, `CloseEnv`), each with what it leaves behind;
- malloc(3) does not clear npos of a new slot, and rdu_free does not either;
- rdu_pos on a NULL pos[], or behind its end, is a crash (`none`);
- closedir looks for a slot as a read does, so it may make one just to free it;
- rdu_lib_init and rdu_buf_lock signal failure differently: the latter's is returned as 0. What AUFS_CTL_RDU collects is
  an input here, as are the numbers AUFS_CTL_RDU_INO writes. realloc(3) with size 0 counts as an allocation of no
  elements (the C library may return NULL; a directory has at least its two dots). One thread; errno and the buffers'
  addresses are left out, and so are the assertions, since the library is built with NDEBUG (`libau/Makefile`).
-/
import Mathlib.Tactic
import AufsUtil.Lib.Runs
import AufsUtil.Lib.Keyed
import AufsUtil.Rdu.Merge
import AufsUtil.Rdu.UnionView

namespace AufsUtil.Rdu

open AufsUtil.CStr AufsUtil.Runs AufsUtil.Keyed

/-! ## The table -/

/-- struct rdu; `de` and `ent` are whether these pointers are set, `pos` is the entries that pos[] leads to -/
structure Slot where
  fd : ℤ
  shwh : Bool
  de : Bool
  npos : ℕ
  pos : Option (List RduEnt)
  ent : Bool
deriving DecidableEq, Repr

/-- the globals: whether the table was allocated, its slots up to rdu_cur, and rdu_lim -/
structure Lib where
  rdu : Bool
  slots : List Slot
  rdu_lim : ℕ
deriving DecidableEq, Repr

def RDU_STEP : ℕ := 8

/-- the memory for a new slot: whether malloc(3) and realloc(3) fail, and what the memory held -/
structure NewEnv where
  oom : Bool
  append_oom : Bool
  shwh : Bool
  npos : ℕ

def rdu_append (L : Lib) (p : Slot) (oom : Bool) : ℤ × Lib :=
  if L.slots.length ≤ L.rdu_lim - 1 then (0, { L with slots := L.slots ++ [p] })
  else if oom then (-1, L)
  else (0, { L with slots := L.slots ++ [p], rdu_lim := L.rdu_lim + RDU_STEP })

/-- the new slot with its index -/
def rdu_new (L : Lib) (fd : ℕ) (e : NewEnv) : Option (ℕ × Slot) × Lib :=
  if e.oom then (none, L)
  else
    let p : Slot := ⟨fd, e.shwh, false, e.npos, none, false⟩
    let r := rdu_append L p e.append_oom
    if r.1 = 0 then (some (L.slots.length, p), r.2) else (none, r.2)

/-- the slot of fd: the first one that has it, else the first free one, else a new one -/
def rdu_buf_lock (L : Lib) (fd : ℕ) (e : NewEnv) : Option (ℕ × Slot) × Lib :=
  if !L.rdu then (none, L)
  else
    match L.slots.findIdx? (·.fd = (fd : ℤ)) with
    | some i => (L.slots[i]?.map (i, ·), L)
    | none =>
      match L.slots.findIdx? (·.fd = -1) with
      | some i =>
        let slots := L.slots.modify i ({ · with fd := fd })
        (slots[i]?.map (i, ·), { L with slots := slots })
      | none => rdu_new L fd e

def rdu_free (L : Lib) (i : ℕ) : Lib :=
  { L with slots := L.slots.modify i ({ · with fd := -1, de := false, pos := none, ent := false }) }

/-! ## rdu_init -/

/-- what the loop over AUFS_CTL_RDU collected, or npos when a call in it failed -/
inductive Collected where
  | all (ents : List RduEnt)
  | failed (npos : ℕ)

structure InitEnv where
  ent_oom : Bool
  collected : Collected
  shwh : Bool
  addr : ℕ
  merge : MergeEnv
  /-- AUFS_CTL_RDU_INO: the inode numbers it writes, none when it fails -/
  ino : Option (RduEnt → ℕ)
  de_oom : Bool

def numbered (ino : RduEnt → ℕ) (cells : List Cell) : List RduEnt :=
  cells.map fun c => { c.ent with ino := ino c.ent }

def rdu_init (p : Slot) (want_de : Bool) (e : InitEnv) : ℤ × Slot :=
  if !p.ent && e.ent_oom then (-1, p)
  else
    let p := { p with ent := true, shwh := e.shwh }
    match e.collected with
    | .failed npos => (-1, { p with npos := npos, ent := false })
    | .all ents =>
      let r := rdu_merge e.merge e.shwh e.addr ents
      if r.1 ≠ 0 then (r.1, { p with npos := ents.length, pos := none, ent := false })
      else
        let p := { p with npos := r.2.length, pos := some (r.2.map Cell.ent) }
        match e.ino with
        | none => (-1, { p with ent := false })
        | some ino =>
          let p := { p with pos := some (numbered ino r.2) }
          if want_de && !p.de && e.de_oom then (-1, { p with ent := false })
          else (0, { p with de := p.de || want_de })

/-- the merged listing that rdu_init takes when nothing fails -/
def InitEnv.listing (e : InitEnv) : List RduEnt :=
  match e.collected, e.ino with
  | .all ents, some ino => numbered ino (rdu_merge e.merge e.shwh e.addr ents).2
  | _, _ => []

/-! ## rdu_readdir -/

/-- struct dirent -/
structure Dirent where
  d_ino : ℕ
  d_off : ℕ
  d_reclen : ℕ
  d_type : ℕ
  d_name : Bytes
deriving DecidableEq, Repr

def dirent (pos : ℕ) (ent : RduEnt) : Dirent := ⟨ent.ino, pos, au_rdu_len ent.nlen, ent.type, ent.name⟩

/-- the entry at pos, or `some none` behind the last one; `none` when pos[] is not there -/
def rdu_pos (p : Slot) (pos : ℕ) : Option (Option Dirent) :=
  if pos < p.npos then (p.pos.bind (·[pos]?)).map fun ent => some (dirent pos ent) else some none

structure ReadEnv where
  fstatfs : Bool
  lib_oom : Bool
  new : NewEnv
  init : InitEnv

/-- what a read returns: the value, *rde, the table and the position then; `took` is the listing if rdu_init was made -/
structure ReadRes where
  err : ℤ
  rde : Option Dirent
  lib : Lib
  pos : ℕ
  took : Option (List RduEnt)

/-- a read of the stream with descriptor fd at position pos; `de` is whether the caller gave a
buffer, as readdir_r does -/
def rdu_readdir (L : Lib) (fd pos : ℕ) (de : Bool) (e : ReadEnv) : Option ReadRes :=
  if !e.fstatfs then some ⟨-1, none, L, pos, none⟩
  else if !L.rdu && e.lib_oom then some ⟨1, none, L, pos, none⟩
  else
    match rdu_buf_lock { L with rdu := true } fd e.new with
    | (none, L) => some ⟨0, none, L, pos, none⟩
    | (some (i, p), L) =>
      let init := pos = 0 ∨ p.npos = 0
      let r := if init then rdu_init p (!de) e.init else (0, p)
      let took := if init then some e.init.listing else none
      let L := { L with slots := L.slots.set i r.2 }
      if r.1 ≠ 0 then some ⟨r.1, none, rdu_free L i, pos, none⟩
      else if !de && !r.2.de then some ⟨-1, none, L, pos, took⟩
      else (rdu_pos r.2 pos).map fun rde => ⟨0, rde, L, pos + 1, took⟩

structure CloseEnv where
  fstatfs : Bool
  new : NewEnv

/-- the table after closedir, none if it gave up before closing -/
def closedir (L : Lib) (fd : ℕ) (e : CloseEnv) : Option Lib :=
  if !e.fstatfs then none
  else
    match rdu_buf_lock L fd e.new with
    | (none, L) => some L
    | (some (i, _), L) => some (rdu_free L i)

/-! ## Streams -/

/-- an open DIR: its descriptor, whether it is read by readdir_r, its position, and the positions telldir returned;
`listing` is history, the listing of the last rdu_init made for it -/
structure Dir where
  fd : ℕ
  de : Bool
  pos : ℕ
  told : List ℕ
  listing : Option (List RduEnt)
deriving DecidableEq, Repr

structure Sys where
  lib : Lib
  dirs : List Dir
deriving DecidableEq, Repr

inductive Call where
  | opendir (fd : ℕ) (de : Bool)
  | read (fd : ℕ) (e : ReadEnv)
  | telldir (fd : ℕ)
  | seekdir (fd pos : ℕ)
  | rewinddir (fd : ℕ)
  | closedir (fd : ℕ) (e : CloseEnv)

/-- the stream with descriptor fd is changed by f -/
def update (dirs : List Dir) (fd : ℕ) (f : Dir → Dir) : List Dir := dirs.map fun d => if d.fd = fd then f d else d

/-- a read of the stream with descriptor fd, by the function that this stream uses -/
def read (s : Sys) (fd : ℕ) (e : ReadEnv) : Option (ReadRes × Sys) :=
  match s.dirs.find? (·.fd = fd) with
  | none => none
  | some d =>
    (rdu_readdir s.lib fd d.pos d.de e).map fun r =>
      (r, ⟨r.lib, update s.dirs fd fun d => { d with pos := r.pos, listing := r.took.or d.listing }⟩)

/-- a call on a stream that is not open is no step, nor is an opendir with a descriptor in use, or a seekdir elsewhere
than to 0 or to where telldir said -/
def step (s : Sys) : Call → Option Sys
  | .opendir fd de => if s.dirs.any (·.fd = fd) then none else some { s with dirs := ⟨fd, de, 0, [], none⟩ :: s.dirs }
  | .read fd e => (read s fd e).map Prod.snd
  | .telldir fd =>
    match s.dirs.find? (·.fd = fd) with
    | none => none
    | some _ => some { s with dirs := update s.dirs fd fun d => { d with told := d.pos :: d.told } }
  | .seekdir fd pos =>
    match s.dirs.find? (·.fd = fd) with
    | none => none
    | some d =>
      if pos = 0 ∨ pos ∈ d.told then some { s with dirs := update s.dirs fd fun d => { d with pos := pos } } else none
  | .rewinddir fd =>
    match s.dirs.find? (·.fd = fd) with
    | none => none
    | some _ => some { s with dirs := update s.dirs fd fun d => { d with pos := 0 } }
  | .closedir fd e =>
    match s.dirs.find? (·.fd = fd) with
    | none => none
    | some _ =>
      match closedir s.lib fd e with
      | none => some s
      | some L => some ⟨L, s.dirs.eraseP (·.fd = fd)⟩

/-- a process that has called nothing yet -/
def init : Sys := ⟨⟨false, [], RDU_STEP⟩, []⟩

/-! ## No failing call -/

def NewEnv.Ok (e : NewEnv) : Prop := e.oom = false ∧ e.append_oom = false

structure InitEnv.Ok (e : InitEnv) : Prop where
  ent : e.ent_oom = false
  collected : ∃ ents, e.collected = .all ents
  pos : e.merge.pos_oom = false
  tsearch : ∀ ul, e.merge.tsearch_oom ul = false
  ino : e.ino.isSome
  de : e.de_oom = false

structure ReadEnv.Ok (e : ReadEnv) : Prop where
  fstatfs : e.fstatfs = true
  lib : e.lib_oom = false
  new : e.new.Ok
  init : e.init.Ok

def Call.Ok : Call → Prop
  | .read _ e => e.Ok
  | .closedir _ e => e.fstatfs = true ∧ e.new.Ok
  | _ => True

/-! ## Streams by themselves -/

/-- when a read of the stream takes a new listing -/
def Dir.rereads (d : Dir) : Prop := d.pos = 0 ∨ d.listing = some []

instance (d : Dir) : Decidable d.rereads := inferInstanceAs (Decidable (_ ∨ _))

/-- the listing a read of the stream sees -/
def Dir.reading (d : Dir) (e : InitEnv) : Option (List RduEnt) := if d.rereads then some e.listing else d.listing

/-- the streams without the table: each has its own listing and position -/
def spec (dirs : List Dir) : Call → Option (List Dir)
  | .opendir fd de => if dirs.any (·.fd = fd) then none else some (⟨fd, de, 0, [], none⟩ :: dirs)
  | .read fd e =>
    (dirs.find? (·.fd = fd)).map fun _ => update dirs fd fun d => { d with pos := d.pos + 1, listing := d.reading e.init }
  | .telldir fd => (dirs.find? (·.fd = fd)).map fun _ => update dirs fd fun d => { d with told := d.pos :: d.told }
  | .seekdir fd pos =>
    (dirs.find? (·.fd = fd)).bind fun d =>
      if pos = 0 ∨ pos ∈ d.told then some (update dirs fd fun d => { d with pos := pos }) else none
  | .rewinddir fd => (dirs.find? (·.fd = fd)).map fun _ => update dirs fd fun d => { d with pos := 0 }
  | .closedir fd _ => (dirs.find? (·.fd = fd)).map fun _ => dirs.eraseP (·.fd = fd)

/-! ## Slots -/

/-- the slot that is found for fd -/
def slotOf (L : Lib) (fd : ℕ) : Option Slot := L.slots.find? (·.fd = (fd : ℤ))

/-- p, at index i, is the slot found for fd: the one it had, if any; the other descriptors keep theirs -/
structure Locked (L : Lib) (fd : ℕ) (L' : Lib) (i : ℕ) (p : Slot) : Prop where
  first : L'.slots.findIdx? (·.fd = (fd : ℤ)) = some i
  at_i : L'.slots[i]? = some p
  fd_eq : p.fd = fd
  kept : ∀ q, slotOf L fd = some q → p = q
  others : ∀ f, f ≠ fd → slotOf L' f = slotOf L f

section Slots

variable {L L' : Lib} {fd i : ℕ} {p : Slot}

theorem neg_one_ne (f : ℕ) : (-1 : ℤ) ≠ f := by omega

/-- what the holder of a slot writes into it is found for its descriptor, and for no other one -/
theorem Locked.set (h : Locked L fd L' i p) {q : Slot} (hq : q.fd = fd) :
    slotOf { L' with slots := L'.slots.set i q } fd = some q ∧
      ∀ f, f ≠ fd → slotOf { L' with slots := L'.slots.set i q } f = slotOf L f := by
  refine ⟨find?_set_self h.first hq, fun f hf => ?_⟩
  rw [← h.others f hf]
  have hne : (fd : ℤ) ≠ f := by
    intro heq
    exact hf (Nat.cast_injective heq).symm
  exact find?_set_ne h.at_i (h.fd_eq ▸ hne) (hq ▸ hne)

theorem rdu_free_slots (hi : L.slots[i]? = some p) :
    (rdu_free L i).slots = L.slots.set i { p with fd := -1, de := false, pos := none, ent := false } := by
  rw [rdu_free, List.modify_eq_set_getElem?, hi, Option.map_eq_map, Option.map_some, Option.getD_some]

/-- freeing a slot leaves the other descriptors theirs -/
theorem slotOf_free (hi : L.slots[i]? = some p) (hp : p.fd = fd) :
    ∀ f, f ≠ fd → slotOf (rdu_free L i) f = slotOf L f := by
  intro f hf
  have hne : p.fd ≠ (f : ℤ) := by
    rw [hp]
    intro heq
    exact hf (Nat.cast_injective heq).symm
  rw [slotOf, rdu_free_slots hi]
  exact find?_set_ne hi hne (neg_one_ne f)

theorem Locked.free (h : Locked L fd L' i p) : ∀ f, f ≠ fd → slotOf (rdu_free L' i) f = slotOf L f :=
  fun f hf => (slotOf_free h.at_i h.fd_eq f hf).trans (h.others f hf)

/-- a slot added at the end -/
theorem locked_append (hnone : slotOf L fd = none) (hp : p.fd = fd) (hslots : L'.slots = L.slots ++ [p]) :
    Locked L fd L' L.slots.length p := by
  refine ⟨?_, by rw [hslots]; simp, hp, fun q hq => ?_, fun f hf => ?_⟩
  · have hidx : L.slots.findIdx? (·.fd = (fd : ℤ)) = none := by
      rw [List.findIdx?_eq_none_iff]
      intro q hq
      simpa using List.find?_eq_none.1 hnone q hq
    rw [hslots, List.findIdx?_append, hidx, Option.none_or, List.findIdx?_cons, if_pos (by simpa using hp),
      Option.map_some, Nat.zero_add]
  · rw [hnone] at hq
    cases hq
  · rw [slotOf, hslots]
    apply find?_concat_ne
    rw [hp]
    intro heq
    exact hf (Nat.cast_injective heq).symm

/-- a free slot taken over -/
theorem locked_recycle (hnone : slotOf L fd = none) {q : Slot} (hi : L.slots[i]? = some q) (hq : q.fd = -1) :
    Locked L fd { L with slots := L.slots.set i { q with fd := fd } } i { q with fd := fd } := by
  have hlt := (List.getElem?_eq_some_iff.1 hi).1
  refine ⟨findIdx?_set_new hnone hlt rfl, List.getElem?_set_self hlt, rfl, fun q hq => ?_, fun f hf => ?_⟩
  · rw [hnone] at hq
    cases hq
  · refine find?_set_ne hi (hq ▸ neg_one_ne f) fun heq => hf ?_
    exact (Nat.cast_injective heq).symm

/-- the slot of a descriptor that has one -/
theorem locked_found (hidx : L.slots.findIdx? (·.fd = (fd : ℤ)) = some i) (hi : L.slots[i]? = some p) :
    Locked L fd L i p := by
  obtain ⟨hlt, hp, hbefore⟩ := List.findIdx?_eq_some_iff_getElem.1 hidx
  have hpi : L.slots[i] = p := (List.getElem?_eq_some_iff.1 hi).2
  refine ⟨hidx, hi, by simpa [hpi] using hp, fun q hq => ?_, fun f _ => rfl⟩
  have hself : slotOf L fd = some p := by
    have hset := find?_set_self hidx (b := p) (by simpa [hpi] using hp)
    rw [← hpi, List.set_getElem_self] at hset
    rw [← hpi]
    exact hset
  exact Option.some.inj (hself.symm.trans hq)

/-- how rdu_buf_lock ends -/
inductive Locking (L : Lib) (fd : ℕ) (e : NewEnv) : Option (ℕ × Slot) × Lib → Prop where
  | no_table (hrdu : L.rdu = false) : Locking L fd e (none, L)
  | own {i : ℕ} {p : Slot} (hrdu : L.rdu = true) (hidx : L.slots.findIdx? (·.fd = (fd : ℤ)) = some i)
      (hi : L.slots[i]? = some p) : Locking L fd e (some (i, p), L)
  | free {i : ℕ} {q : Slot} (hrdu : L.rdu = true) (hown : slotOf L fd = none)
      (hfree : L.slots.find? (·.fd = -1) = some q) (hi : L.slots[i]? = some q) :
      Locking L fd e (some (i, { q with fd := fd }), { L with slots := L.slots.set i { q with fd := fd } })
  | oom (hrdu : L.rdu = true) (hown : slotOf L fd = none) (hfree : L.slots.find? (·.fd = -1) = none)
      (hoom : (e.oom || (L.rdu_lim - 1 < L.slots.length && e.append_oom)) = true) : Locking L fd e (none, L)
  | fresh {lim : ℕ} (hrdu : L.rdu = true) (hown : slotOf L fd = none) (hfree : L.slots.find? (·.fd = -1) = none)
      (hroom : (e.oom || (L.rdu_lim - 1 < L.slots.length && e.append_oom)) = false) :
      Locking L fd e (some (L.slots.length, ⟨fd, e.shwh, false, e.npos, none, false⟩),
        ⟨L.rdu, L.slots ++ [⟨fd, e.shwh, false, e.npos, none, false⟩], lim⟩)

theorem rdu_buf_lock_cases (L : Lib) (fd : ℕ) (e : NewEnv) : Locking L fd e (rdu_buf_lock L fd e) := by
  unfold rdu_buf_lock
  by_cases hno : (!L.rdu) = true
  · rw [if_pos hno]
    exact .no_table (by simpa using hno)
  have hrdu : L.rdu = true := by simpa using hno
  rw [if_neg hno]
  cases hidx : L.slots.findIdx? (·.fd = (fd : ℤ)) with
  | some i =>
    obtain ⟨hlt, -⟩ := List.findIdx?_eq_some_iff_getElem.1 hidx
    have hi := List.getElem?_eq_getElem hlt
    dsimp only
    rw [hi]
    exact .own hrdu hidx hi
  | none =>
    have hown : slotOf L fd = none := by
      rw [slotOf, List.find?_eq_bind_findIdx?_getElem?, hidx]
      rfl
    dsimp only
    cases hidx' : L.slots.findIdx? (·.fd = -1) with
    | some i =>
      obtain ⟨hlt, -⟩ := List.findIdx?_eq_some_iff_getElem.1 hidx'
      have hi := List.getElem?_eq_getElem hlt
      have hfree : L.slots.find? (·.fd = -1) = some L.slots[i] := by
        rw [List.find?_eq_bind_findIdx?_getElem?, hidx']
        exact hi
      dsimp only
      rw [List.modify_eq_set_getElem?, hi, Option.map_eq_map, Option.map_some, Option.getD_some,
        List.getElem?_set_self hlt]
      exact .free hrdu hown hfree hi
    | none =>
      have hfree : L.slots.find? (·.fd = -1) = none := by
        rw [List.find?_eq_bind_findIdx?_getElem?, hidx']
        rfl
      dsimp only
      unfold rdu_new rdu_append
      cases hoom : e.oom with
      | true => exact .oom hrdu hown hfree (by simp [hoom])
      | false =>
        simp only [Bool.false_eq_true, if_false]
        by_cases hroom : L.slots.length ≤ L.rdu_lim - 1
        · rw [if_pos hroom, if_pos rfl]
          exact .fresh hrdu hown hfree (by simp [hoom, hroom])
        · rw [if_neg hroom]
          cases happ : e.append_oom with
          | true => exact .oom hrdu hown hfree (by simp [happ, not_le.1 hroom])
          | false => exact .fresh hrdu hown hfree (by simp [hoom, happ])

/-- **rdu_buf_lock.** It finds, recycles or makes a slot for fd, and takes none away from another descriptor; it fails
without the table, or when an allocation fails. -/
theorem rdu_buf_lock_spec {e : NewEnv} {r : Option (ℕ × Slot)} (h : rdu_buf_lock L fd e = (r, L')) :
    (r = none ∧ L' = L ∧ ¬(L.rdu = true ∧ e.Ok)) ∨ ∃ i p, r = some (i, p) ∧ Locked L fd L' i p := by
  have hcases := rdu_buf_lock_cases L fd e
  rw [h] at hcases
  cases hcases with
  | no_table hrdu => exact Or.inl ⟨rfl, rfl, fun hok => by simp [hrdu] at hok⟩
  | own hrdu hidx hi => exact Or.inr ⟨_, _, rfl, locked_found hidx hi⟩
  | free hrdu hown hfree hi =>
    have hq := List.find?_some hfree
    exact Or.inr ⟨_, _, rfl, locked_recycle hown hi (by simpa using hq)⟩
  | oom hrdu hown hfree hoom =>
    refine Or.inl ⟨rfl, rfl, ?_⟩
    intro ⟨_, hmalloc, happend⟩
    simp [hmalloc, happend] at hoom
  | fresh hrdu hown hfree hroom => exact Or.inr ⟨_, _, rfl, locked_append hown rfl rfl⟩

theorem rdu_buf_lock_locked {e : NewEnv} (h : rdu_buf_lock L fd e = (some (i, p), L')) : Locked L fd L' i p := by
  obtain ⟨_, _, heq, hlocked⟩ := (rdu_buf_lock_spec h).resolve_left (by simp)
  cases heq
  exact hlocked

end Slots

/-! ## Ends of a read -/

/-- fstatfs(2) works, and the table is there or can be allocated -/
def Started (L : Lib) (e : ReadEnv) : Prop := e.fstatfs = true ∧ (L.rdu = true ∨ e.lib_oom = false)

/-- what a read makes of the slot p that it locked before it comes to rdu_pos: a new listing, or nothing -/
def Refilled (p : Slot) (pos : ℕ) (de : Bool) (e : InitEnv) (q : Slot) (took : Option (List RduEnt)) : Prop :=
  if pos = 0 ∨ p.npos = 0 then rdu_init p (!de) e = (0, q) ∧ took = some e.listing else q = p ∧ took = none

/-- how a read ends -/
inductive Reading (L : Lib) (fd pos : ℕ) (de : Bool) (e : ReadEnv) : Option ReadRes → Prop where
  | not_started {err : ℤ} (hs : ¬Started L e) (herr : err ≠ 0) : Reading L fd pos de e (some ⟨err, none, L, pos, none⟩)
  | no_slot (hs : Started L e)
      (hlock : rdu_buf_lock { L with rdu := true } fd e.new = (none, { L with rdu := true })) :
      Reading L fd pos de e (some ⟨0, none, { L with rdu := true }, pos, none⟩)
  | init_failed {i : ℕ} {p q : Slot} {L' : Lib} {err : ℤ} (hs : Started L e)
      (hlock : rdu_buf_lock { L with rdu := true } fd e.new = (some (i, p), L')) (hinit : pos = 0 ∨ p.npos = 0)
      (hres : rdu_init p (!de) e.init = (err, q)) (herr : err ≠ 0) :
      Reading L fd pos de e (some ⟨err, none, rdu_free { L' with slots := L'.slots.set i q } i, pos, none⟩)
  | no_dirent {i : ℕ} {p q : Slot} {L' : Lib} {took : Option (List RduEnt)} (hs : Started L e)
      (hlock : rdu_buf_lock { L with rdu := true } fd e.new = (some (i, p), L'))
      (hq : Refilled p pos de e.init q took) (hde : (de || q.de) = false) :
      Reading L fd pos de e (some ⟨-1, none, { L' with slots := L'.slots.set i q }, pos, took⟩)
  | answered {i : ℕ} {p q : Slot} {L' : Lib} {took : Option (List RduEnt)} (hs : Started L e)
      (hlock : rdu_buf_lock { L with rdu := true } fd e.new = (some (i, p), L'))
      (hq : Refilled p pos de e.init q took) (hde : (de || q.de) = true) :
      Reading L fd pos de e
        ((rdu_pos q pos).map fun rde => ⟨0, rde, { L' with slots := L'.slots.set i q }, pos + 1, took⟩)

theorem rdu_readdir_cases (L : Lib) (fd pos : ℕ) (de : Bool) (e : ReadEnv) :
    Reading L fd pos de e (rdu_readdir L fd pos de e) := by
  unfold rdu_readdir
  cases hst : e.fstatfs with
  | false => exact .not_started (fun hs => Bool.false_ne_true (hst.symm.trans hs.1)) (by decide)
  | true =>
    rw [if_neg (by simp)]
    by_cases hoom : (!L.rdu && e.lib_oom) = true
    · rw [if_pos hoom]
      refine .not_started (fun hs => ?_) (by decide)
      rcases hs.2 with hlib | hlib <;> simp [hlib] at hoom
    rw [if_neg hoom]
    have hs : Started L e := by
      refine ⟨hst, ?_⟩
      cases hrdu : L.rdu with
      | true => exact Or.inl rfl
      | false => exact Or.inr (by simpa [hrdu] using hoom)
    rcases hlock : rdu_buf_lock { L with rdu := true } fd e.new with ⟨_ | ⟨i, p⟩, L'⟩
    · rcases rdu_buf_lock_spec hlock with ⟨-, rfl, -⟩ | ⟨_, _, hc, -⟩
      · exact .no_slot hs hlock
      · cases hc
    dsimp only
    -- the buffer that rdu_pos gets is the caller's, or that of the slot
    have hend : ∀ (q : Slot) (took : Option (List RduEnt)), Refilled p pos de e.init q took →
        Reading L fd pos de e
          (if !de && !q.de then some ⟨-1, none, { L' with slots := L'.slots.set i q }, pos, took⟩
          else (rdu_pos q pos).map fun rde => ⟨0, rde, { L' with slots := L'.slots.set i q }, pos + 1, took⟩) := by
      intro q took hq
      cases hde : (de || q.de) with
      | false =>
        rw [if_pos (by simpa using hde)]
        exact .no_dirent hs hlock hq hde
      | true =>
        rw [if_neg (by rw [← Bool.not_or, hde]; simp)]
        exact .answered hs hlock hq hde
    by_cases hinit : pos = 0 ∨ p.npos = 0
    · rw [if_pos hinit, if_pos hinit]
      rcases hres : rdu_init p (!de) e.init with ⟨err, q⟩
      by_cases herr : err = 0
      · subst herr
        rw [if_neg (by simp)]
        exact hend q _ (by rw [Refilled, if_pos hinit]; exact ⟨hres, rfl⟩)
      · rw [if_pos herr]
        exact .init_failed hs hlock hinit hres herr
    · rw [if_neg hinit, if_neg hinit, if_neg (by simp)]
      exact hend p _ (by rw [Refilled, if_neg hinit]; exact ⟨rfl, rfl⟩)

/-! ## A read without failing calls -/

/-- the slot holds the listing l, and a dirent for a stream whose caller gives none -/
structure Slot.Holds (p : Slot) (de : Bool) (l : List RduEnt) : Prop where
  pos : p.pos = some l
  npos : p.npos = l.length
  de : de = false → p.de = true

/-- a stream that was not read yet is at position 0, and can only be set there; one that was read has its listing in its
slot -/
structure DirOk (L : Lib) (d : Dir) : Prop where
  fresh : d.listing = none → d.pos = 0 ∧ ∀ t ∈ d.told, t = 0
  held : ∀ l, d.listing = some l → ∃ p, slotOf L d.fd = some p ∧ p.Holds d.de l

/-- rdu_init fails, because a call does, or leaves the listing with npos its length; the slot keeps its descriptor -/
theorem rdu_init_cases (p : Slot) (want_de : Bool) (e : InitEnv) :
    ((rdu_init p want_de e).1 ≠ 0 ∧ (rdu_init p want_de e).2.fd = p.fd ∧ ¬e.Ok) ∨
      rdu_init p want_de e = (0, ⟨p.fd, e.shwh, p.de || want_de, e.listing.length, some e.listing, true⟩) := by
  have herr : (-1 : ℤ) ≠ 0 := by decide
  unfold rdu_init
  by_cases hent : (!p.ent && e.ent_oom) = true
  · rw [if_pos hent]
    refine Or.inl ⟨herr, rfl, fun he => ?_⟩
    simp [he.ent] at hent
  rw [if_neg hent]
  cases hc : e.collected with
  | failed npos =>
    refine Or.inl ⟨herr, rfl, fun he => ?_⟩
    obtain ⟨ents, hents⟩ := he.collected
    rw [hents] at hc
    cases hc
  | all ents =>
    dsimp only
    by_cases hmerge : (rdu_merge e.merge e.shwh e.addr ents).1 ≠ 0
    · rw [if_pos hmerge]
      exact Or.inl ⟨hmerge, rfl, fun he => hmerge ((rdu_merge_recorded e.merge e.shwh e.addr ents).2 he.pos he.tsearch)⟩
    rw [if_neg hmerge]
    cases hino : e.ino with
    | none =>
      refine Or.inl ⟨herr, rfl, fun he => ?_⟩
      have hsome := he.ino
      rw [hino] at hsome
      cases hsome
    | some ino =>
      have hlist : e.listing = numbered ino (rdu_merge e.merge e.shwh e.addr ents).2 := by
        rw [InitEnv.listing, hc, hino]
      dsimp only
      by_cases hde : (want_de && !p.de && e.de_oom) = true
      · rw [if_pos hde]
        refine Or.inl ⟨herr, rfl, fun he => ?_⟩
        simp [he.de] at hde
      · rw [if_neg hde, hlist, numbered, List.length_map]
        exact Or.inr rfl

theorem rdu_init_fd (p : Slot) (want_de : Bool) (e : InitEnv) : (rdu_init p want_de e).2.fd = p.fd := by
  rcases rdu_init_cases p want_de e with ⟨-, hfd, -⟩ | hdone
  · exact hfd
  · rw [hdone]

/-- what rdu_init leaves when it succeeds -/
theorem rdu_init_done {p q : Slot} {want_de : Bool} {e : InitEnv} (h : rdu_init p want_de e = (0, q)) :
    q.pos = some e.listing ∧ q.npos = e.listing.length ∧ q.de = (p.de || want_de) := by
  rcases rdu_init_cases p want_de e with ⟨herr, -, -⟩ | hdone
  · exact absurd (congrArg Prod.fst h) herr
  · rw [hdone] at h
    cases h
    exact ⟨rfl, rfl, rfl⟩

theorem rdu_init_holds {p q : Slot} {de : Bool} {e : InitEnv} (h : rdu_init p (!de) e = (0, q)) :
    q.Holds de e.listing := by
  obtain ⟨hpos, hnpos, hde⟩ := rdu_init_done h
  refine ⟨hpos, hnpos, fun hd => ?_⟩
  rw [hde, hd]
  simp

theorem Refilled.fd {p q : Slot} {pos : ℕ} {de : Bool} {e : InitEnv} {took : Option (List RduEnt)}
    (h : Refilled p pos de e q took) : q.fd = p.fd := by
  unfold Refilled at h
  split_ifs at h with hinit
  · have hfd := rdu_init_fd p (!de) e
    rw [h.1] at hfd
    exact hfd
  · rw [h.1]

theorem rdu_pos_holds {p : Slot} {de : Bool} {l : List RduEnt} (h : p.Holds de l) (pos : ℕ) :
    rdu_pos p pos = some (l[pos]?.map (dirent pos)) := by
  unfold rdu_pos
  rw [h.npos, h.pos, Option.bind_some]
  by_cases hlt : pos < l.length
  · rw [if_pos hlt, List.getElem?_eq_getElem hlt]
    rfl
  · rw [if_neg hlt, List.getElem?_eq_none (not_lt.1 hlt)]
    rfl

/-- what a read of stream d gives, and what it leaves -/
structure ReadsOk (L : Lib) (d : Dir) (l : List RduEnt) (r : ReadRes) : Prop where
  err : r.err = 0
  rde : r.rde = l[d.pos]?.map (dirent d.pos)
  pos : r.pos = d.pos + 1
  took : r.took.or d.listing = some l
  slot : ∃ p, slotOf r.lib d.fd = some p ∧ p.Holds d.de l
  others : ∀ f, f ≠ d.fd → slotOf r.lib f = slotOf L f

/-- npos of the slot tells whether the stream takes a new listing -/
theorem DirOk.init_iff {L : Lib} {d : Dir} (h : DirOk L d) {p : Slot} (hkept : ∀ q, slotOf L d.fd = some q → p = q) :
    (d.pos = 0 ∨ p.npos = 0) ↔ d.rereads := by
  cases hl : d.listing with
  | none =>
    have hpos := (h.fresh hl).1
    exact iff_of_true (Or.inl hpos) (Or.inl hpos)
  | some l =>
    obtain ⟨q, hq, hholds⟩ := h.held l hl
    rw [hkept q hq, hholds.npos, Dir.rereads, hl, Option.some.injEq, List.length_eq_zero_iff]

/-- a read none of whose calls fails comes to a slot, with or without a dirent -/
theorem reading_ok {e : ReadEnv} (he : e.Ok) (L : Lib) (fd pos : ℕ) (de : Bool) :
    ∃ (i : ℕ) (p q : Slot) (L' : Lib) (took : Option (List RduEnt)),
      rdu_buf_lock { L with rdu := true } fd e.new = (some (i, p), L') ∧ Refilled p pos de e.init q took ∧
        rdu_readdir L fd pos de e =
          if (de || q.de) = false then some ⟨-1, none, { L' with slots := L'.slots.set i q }, pos, took⟩
          else (rdu_pos q pos).map fun rde => ⟨0, rde, { L' with slots := L'.slots.set i q }, pos + 1, took⟩ := by
  have hcases := rdu_readdir_cases L fd pos de e
  generalize rdu_readdir L fd pos de e = o at hcases ⊢
  cases hcases with
  | not_started hs => exact absurd ⟨he.fstatfs, Or.inr he.lib⟩ hs
  | no_slot hs hlock =>
    rcases rdu_buf_lock_spec hlock with ⟨-, -, hfail⟩ | ⟨_, _, hc, -⟩
    · exact absurd ⟨rfl, he.new⟩ hfail
    · cases hc
  | @init_failed i p q L' err hs hlock hinit hres herr =>
    rcases rdu_init_cases p (!de) e.init with ⟨-, -, hno⟩ | hdone
    · exact absurd he.init hno
    · rw [hdone] at hres
      cases hres
      exact absurd rfl herr
  | no_dirent hs hlock hq hde => exact ⟨_, _, _, _, _, hlock, hq, (if_pos hde).symm⟩
  | answered hs hlock hq hde => exact ⟨_, _, _, _, _, hlock, hq, (if_neg (by simp [hde])).symm⟩

theorem rdu_readdir_ok {L : Lib} {d : Dir} {e : ReadEnv} (he : e.Ok) (hd : DirOk L d) :
    ∃ l r, d.reading e.init = some l ∧ rdu_readdir L d.fd d.pos d.de e = some r ∧ ReadsOk L d l r := by
  obtain ⟨i, p, q, L', took, hlock, hq, hread⟩ := reading_ok he L d.fd d.pos d.de
  have hp := rdu_buf_lock_locked hlock
  obtain ⟨hself, hothers⟩ := hp.set (hq.fd.trans hp.fd_eq)
  obtain ⟨l, hl, hholds, htook⟩ : ∃ l, d.reading e.init = some l ∧ q.Holds d.de l ∧ took.or d.listing = some l := by
    unfold Refilled at hq
    by_cases hre : d.rereads
    · -- a new listing
      rw [if_pos ((hd.init_iff hp.kept).2 hre)] at hq
      obtain ⟨hres, rfl⟩ := hq
      refine ⟨e.init.listing, by rw [Dir.reading, if_pos hre], ?_, rfl⟩
      exact rdu_init_holds hres
    · -- the slot as it was
      rw [if_neg (hre ∘ (hd.init_iff hp.kept).1)] at hq
      obtain ⟨rfl, rfl⟩ := hq
      have hpos : d.pos ≠ 0 := fun h0 => hre (Or.inl h0)
      obtain ⟨l, hl⟩ := Option.ne_none_iff_exists'.1 fun hnone => hpos (hd.fresh hnone).1
      obtain ⟨x, hx, hholds⟩ := hd.held l hl
      rw [← hp.kept x hx] at hholds
      exact ⟨l, by rw [Dir.reading, if_neg hre, hl], hholds, hl⟩
  have hde : ¬(d.de || q.de) = false := by
    cases hdde : d.de with
    | true => simp
    | false => simp [hholds.de hdde]
  rw [hread, if_neg hde, rdu_pos_holds hholds]
  exact ⟨l, _, hl, rfl, rfl, rfl, rfl, htook, ⟨q, hself, hholds⟩, hothers⟩

/-! ## Every run -/

structure Inv (s : Sys) : Prop where
  nodup : (s.dirs.map Dir.fd).Nodup
  dirs : ∀ d ∈ s.dirs, DirOk s.lib d

theorem inv_init : Inv init := by
  refine ⟨?_, ?_⟩ <;> simp [init]

section Steps

variable {s s' : Sys} {fd : ℕ}

theorem mem_update {dirs : List Dir} {f : Dir → Dir} {d : Dir} (hd : d ∈ update dirs fd f) :
    ∃ c ∈ dirs, (c.fd = fd ∧ d = f c) ∨ (c.fd ≠ fd ∧ d = c) := by
  obtain ⟨c, hc, rfl⟩ := List.mem_map.1 hd
  by_cases hfd : c.fd = fd
  · rw [if_pos hfd]
    exact ⟨c, hc, Or.inl ⟨hfd, rfl⟩⟩
  · rw [if_neg hfd]
    exact ⟨c, hc, Or.inr ⟨hfd, rfl⟩⟩

theorem update_fds (dirs : List Dir) (fd : ℕ) {f : Dir → Dir} (hf : ∀ d, (f d).fd = d.fd) :
    (update dirs fd f).map Dir.fd = dirs.map Dir.fd := by
  rw [update, List.map_map]
  apply List.map_congr_left
  intro d _
  rw [Function.comp_apply]
  split_ifs
  · exact hf d
  · rfl

/-- what a stream needs of the table -/
theorem DirOk.congr {L L' : Lib} {d : Dir} (h : DirOk L d) (hslot : slotOf L' d.fd = slotOf L d.fd) : DirOk L' d :=
  ⟨h.fresh, fun l hl => by rw [hslot]; exact h.held l hl⟩

/-- a call that changes one stream, and the table for this one only -/
theorem Inv.update (hi : Inv s) {L : Lib} {f : Dir → Dir} (hf : ∀ d, (f d).fd = d.fd)
    (hothers : ∀ g, g ≠ fd → slotOf L g = slotOf s.lib g) (hfd : ∀ d ∈ s.dirs, d.fd = fd → DirOk L (f d)) :
    Inv ⟨L, update s.dirs fd f⟩ := by
  refine ⟨by rw [update_fds s.dirs fd hf]; exact hi.nodup, ?_⟩
  intro d hd
  obtain ⟨c, hc, ⟨hcfd, rfl⟩ | ⟨hcfd, rfl⟩⟩ := mem_update hd
  · exact hfd c hc hcfd
  · exact (hi.dirs d hc).congr (hothers d.fd hcfd)

theorem closedir_others {L L' : Lib} {e : CloseEnv} (h : closedir L fd e = some L') :
    ∀ f, f ≠ fd → slotOf L' f = slotOf L f := by
  unfold closedir at h
  split_ifs at h
  rcases hlock : rdu_buf_lock L fd e.new with ⟨o, M⟩
  rw [hlock] at h
  rcases rdu_buf_lock_spec hlock with ⟨rfl, rfl, -⟩ | ⟨i, p, rfl, hp⟩
  · cases h
    exact fun _ _ => rfl
  · cases h
    exact hp.free

/-- a read of an open stream, in a state that earlier calls left -/
theorem read_ok (hi : Inv s) {d : Dir} (hd : d ∈ s.dirs) {e : ReadEnv} (he : e.Ok) :
    ∃ l r, d.reading e.init = some l ∧ ReadsOk s.lib d l r ∧
      read s d.fd e = some (r, ⟨r.lib, Rdu.update s.dirs d.fd fun d => { d with pos := d.pos + 1, listing := some l }⟩) := by
  obtain ⟨l, r, hl, hr, hok⟩ := rdu_readdir_ok he (hi.dirs d hd)
  refine ⟨l, r, hl, hok, ?_⟩
  rw [read, find?_of_mem hi.nodup hd]
  dsimp only
  rw [hr, Option.map_some]
  congr 3
  apply List.map_congr_left
  intro c hc
  by_cases hfd : c.fd = d.fd
  · obtain rfl := List.inj_on_of_nodup_map hi.nodup hc hd hfd
    rw [if_pos rfl, if_pos rfl, hok.pos]
    dsimp only
    rw [hok.took]
  · rw [if_neg hfd, if_neg hfd]

theorem find?_dir {d : Dir} (h : s.dirs.find? (·.fd = fd) = some d) : d ∈ s.dirs ∧ d.fd = fd :=
  ⟨List.mem_of_find?_eq_some h, by simpa using List.find?_some h⟩

/-- what a call does to the table and the streams -/
inductive Stepped (s : Sys) : Call → Sys → Prop where
  | opened {fd : ℕ} {de : Bool} (hnew : ∀ d ∈ s.dirs, d.fd ≠ fd) :
      Stepped s (.opendir fd de) ⟨s.lib, ⟨fd, de, 0, [], none⟩ :: s.dirs⟩
  | done {d : Dir} {e : ReadEnv} {r : ReadRes} (hd : d ∈ s.dirs) (hr : rdu_readdir s.lib d.fd d.pos d.de e = some r) :
      Stepped s (.read d.fd e)
        ⟨r.lib, Rdu.update s.dirs d.fd fun d => { d with pos := r.pos, listing := r.took.or d.listing }⟩
  | told {d : Dir} (hd : d ∈ s.dirs) :
      Stepped s (.telldir d.fd) ⟨s.lib, Rdu.update s.dirs d.fd fun d => { d with told := d.pos :: d.told }⟩
  | sought {d : Dir} {pos : ℕ} (hd : d ∈ s.dirs) (hpos : pos = 0 ∨ pos ∈ d.told) :
      Stepped s (.seekdir d.fd pos) ⟨s.lib, Rdu.update s.dirs d.fd fun d => { d with pos := pos }⟩
  | rewound {d : Dir} (hd : d ∈ s.dirs) :
      Stepped s (.rewinddir d.fd) ⟨s.lib, Rdu.update s.dirs d.fd fun d => { d with pos := 0 }⟩
  | left_open {d : Dir} {e : CloseEnv} (hd : d ∈ s.dirs) : Stepped s (.closedir d.fd e) s
  | closed {d : Dir} {e : CloseEnv} {L : Lib} (hd : d ∈ s.dirs) (hL : closedir s.lib d.fd e = some L) :
      Stepped s (.closedir d.fd e) ⟨L, s.dirs.eraseP (·.fd = d.fd)⟩

theorem step_cases {c : Call} (h : step s c = some s') : Stepped s c s' := by
  cases c with
  | opendir fd de =>
    simp only [step] at h
    split_ifs at h with hany
    cases h
    refine .opened fun d hd hfd => hany ?_
    exact List.any_eq_true.2 ⟨d, hd, by simpa using hfd⟩
  | read fd e =>
    simp only [step, read] at h
    split at h
    · cases h
    · rename_i d hfind
      obtain ⟨hd, rfl⟩ := find?_dir hfind
      rw [Option.map_map] at h
      obtain ⟨r, hr, rfl⟩ := Option.map_eq_some_iff.1 h
      exact .done hd hr
  | telldir fd =>
    simp only [step] at h
    split at h
    · cases h
    · rename_i d hfind
      obtain ⟨hd, rfl⟩ := find?_dir hfind
      cases h
      exact .told hd
  | seekdir fd pos =>
    simp only [step] at h
    split at h
    · cases h
    · rename_i d hfind
      obtain ⟨hd, rfl⟩ := find?_dir hfind
      split_ifs at h with hpos
      cases h
      exact .sought hd hpos
  | rewinddir fd =>
    simp only [step] at h
    split at h
    · cases h
    · rename_i d hfind
      obtain ⟨hd, rfl⟩ := find?_dir hfind
      cases h
      exact .rewound hd
  | closedir fd e =>
    simp only [step] at h
    split at h
    · cases h
    · rename_i d hfind
      obtain ⟨hd, rfl⟩ := find?_dir hfind
      split at h
      · cases h
        exact .left_open hd
      · rename_i L hL
        cases h
        exact .closed hd hL

/-- a stream that was not read yet tells 0 -/
theorem fresh_tell {d : Dir} (h : d.listing = none → d.pos = 0 ∧ ∀ t ∈ d.told, t = 0) (hl : d.listing = none) :
    d.pos = 0 ∧ ∀ t ∈ d.pos :: d.told, t = 0 := by
  obtain ⟨hpos, htold⟩ := h hl
  refine ⟨hpos, ?_⟩
  intro t ht
  rcases List.mem_cons.1 ht with rfl | ht
  · exact hpos
  · exact htold t ht

/-- and can only be set to 0 -/
theorem fresh_seek {d : Dir} (h : d.listing = none → d.pos = 0 ∧ ∀ t ∈ d.told, t = 0) {pos : ℕ}
    (hpos : pos = 0 ∨ pos ∈ d.told) (hl : d.listing = none) : pos = 0 ∧ ∀ t ∈ d.told, t = 0 := by
  refine ⟨?_, (h hl).2⟩
  rcases hpos with rfl | hpos
  · rfl
  · exact (h hl).2 pos hpos

theorem DirOk.tell {L : Lib} {d : Dir} (h : DirOk L d) : DirOk L { d with told := d.pos :: d.told } :=
  ⟨fresh_tell h.fresh, h.held⟩

theorem DirOk.seek {L : Lib} {d : Dir} (h : DirOk L d) {pos : ℕ} (hpos : pos = 0 ∨ pos ∈ d.told) :
    DirOk L { d with pos := pos } :=
  ⟨fresh_seek h.fresh hpos, h.held⟩

theorem ReadsOk.dirOk {L : Lib} {d : Dir} {l : List RduEnt} {r : ReadRes} (h : ReadsOk L d l r) :
    DirOk r.lib { d with pos := d.pos + 1, listing := some l } := by
  refine ⟨fun hnone => absurd hnone (by simp), ?_⟩
  intro l' hl
  cases hl
  exact h.slot

theorem Inv.opendir (hi : Inv s) (de : Bool) (hnew : ∀ d ∈ s.dirs, d.fd ≠ fd) :
    Inv { s with dirs := ⟨fd, de, 0, [], none⟩ :: s.dirs } := by
  refine ⟨?_, ?_⟩
  · rw [List.map_cons, List.nodup_cons]
    refine ⟨fun hm => ?_, hi.nodup⟩
    obtain ⟨d, hd, hfd⟩ := List.mem_map.1 hm
    exact hnew d hd hfd
  · intro d hd
    rcases List.mem_cons.1 hd with rfl | hd
    · exact ⟨fun _ => ⟨rfl, by simp⟩, by simp⟩
    · exact hi.dirs d hd

theorem Inv.close (hi : Inv s) {L : Lib} (hothers : ∀ f, f ≠ fd → slotOf L f = slotOf s.lib f) :
    Inv ⟨L, s.dirs.eraseP (·.fd = fd)⟩ := by
  refine ⟨hi.nodup.sublist (List.eraseP_sublist.map Dir.fd), ?_⟩
  intro d hd
  obtain ⟨hd, hfd⟩ := (mem_eraseP_key hi.nodup).1 hd
  exact (hi.dirs d hd).congr (hothers d.fd hfd)

/-- a call that changes one stream alone, which needs nothing else of the table then -/
theorem Inv.update_one (hi : Inv s) {L : Lib} {d : Dir} {f : Dir → Dir} (hd : d ∈ s.dirs) (hf : ∀ d, (f d).fd = d.fd)
    (hothers : ∀ g, g ≠ d.fd → slotOf L g = slotOf s.lib g) (hok : DirOk L (f d)) :
    Inv ⟨L, Rdu.update s.dirs d.fd f⟩ := by
  refine hi.update hf hothers ?_
  intro c hc hfd
  obtain rfl := List.inj_on_of_nodup_map hi.nodup hc hd hfd
  exact hok

/-- every call that does not fail keeps it -/
theorem inv_step {c : Call} (hc : c.Ok) (hi : Inv s) (h : step s c = some s') : Inv s' := by
  cases step_cases h with
  | opened hnew => exact hi.opendir _ hnew
  | @done d e r hd hr =>
    obtain ⟨l, r', -, hr', hok⟩ := rdu_readdir_ok hc (hi.dirs d hd)
    obtain rfl := Option.some.inj (hr.symm.trans hr')
    refine hi.update_one hd (fun _ => rfl) hok.others ?_
    rw [hok.pos, hok.took]
    exact hok.dirOk
  | told hd => exact hi.update_one hd (fun _ => rfl) (fun _ _ => rfl) (hi.dirs _ hd).tell
  | sought hd hpos => exact hi.update_one hd (fun _ => rfl) (fun _ _ => rfl) ((hi.dirs _ hd).seek hpos)
  | rewound hd => exact hi.update_one hd (fun _ => rfl) (fun _ _ => rfl) ((hi.dirs _ hd).seek (Or.inl rfl))
  | left_open hd => exact hi
  | closed hd hL => exact hi.close (closedir_others hL)

/-- closedir closes, if fstatfs(2) works -/
theorem closedir_isSome (L : Lib) (fd : ℕ) {e : CloseEnv} (he : e.fstatfs = true) : (closedir L fd e).isSome := by
  unfold closedir
  rw [if_neg (by simp [he])]
  split <;> rfl

/-- what a call does to the streams does not depend on the table -/
theorem step_dirs {c : Call} (hc : c.Ok) (hi : Inv s) : (step s c).map Sys.dirs = spec s.dirs c := by
  cases c with
  | opendir fd de =>
    simp only [step, spec]
    split_ifs <;> rfl
  | read fd e =>
    cases hfind : s.dirs.find? (·.fd = fd) with
    | none => simp only [step, spec, read, hfind, Option.map_none]
    | some d =>
      obtain ⟨hd, rfl⟩ := find?_dir hfind
      obtain ⟨l, r, hl, -, hread⟩ := read_ok hi hd hc
      rw [step, spec, hread, hfind, Option.map_some, Option.map_some, Option.map_some]
      congr 1
      apply List.map_congr_left
      intro c hcm
      by_cases hfd : c.fd = d.fd
      · obtain rfl := List.inj_on_of_nodup_map hi.nodup hcm hd hfd
        rw [if_pos rfl, if_pos rfl]
        dsimp only
        rw [hl]
      · rw [if_neg hfd, if_neg hfd]
  | telldir fd => cases hfind : s.dirs.find? (·.fd = fd) <;> simp only [step, spec, hfind, Option.map_none, Option.map_some]
  | seekdir fd pos =>
    cases hfind : s.dirs.find? (·.fd = fd) with
    | none => simp only [step, spec, hfind, Option.map_none, Option.bind_none]
    | some d =>
      simp only [step, spec, hfind, Option.bind_some]
      split_ifs <;> rfl
  | rewinddir fd => cases hfind : s.dirs.find? (·.fd = fd) <;> simp only [step, spec, hfind, Option.map_none, Option.map_some]
  | closedir fd e =>
    obtain ⟨L, hL⟩ := Option.isSome_iff_exists.1 (closedir_isSome s.lib fd hc.1)
    cases hfind : s.dirs.find? (·.fd = fd) <;> simp only [step, spec, hfind, hL, Option.map_none, Option.map_some]

end Steps

theorem inv_run {calls : List Call} {s : Sys} (hok : ∀ c ∈ calls, c.Ok) (h : exec step init calls = some s) : Inv s :=
  exec_invariant_of step Call.Ok Inv (fun _ _ _ => inv_step) hok inv_init h

/-- **Streams do not disturb each other.** In every run of calls none of which fails, the streams are what they are
without the table; and a read of any of them, at position k, succeeds, returns entry k of the listing it took last (now,
if it is at position 0 or took an empty one), or the end exactly if there is none, and moves this stream to k + 1. -/
theorem streams_independent (calls : List Call) (s : Sys) (hok : ∀ c ∈ calls, c.Ok)
    (h : exec step init calls = some s) :
    exec spec [] calls = some s.dirs ∧
      ∀ d ∈ s.dirs, ∀ e : ReadEnv, e.Ok → ∃ l r s', d.reading e.init = some l ∧ read s d.fd e = some (r, s') ∧
        r.err = 0 ∧ r.rde = l[d.pos]?.map (dirent d.pos) ∧ (r.rde = none ↔ l.length ≤ d.pos) ∧
        s'.dirs = update s.dirs d.fd fun d => { d with pos := d.pos + 1, listing := some l } := by
  have hi := inv_run hok h
  refine ⟨?_, ?_⟩
  · have hsim := exec_map step spec Sys.dirs Call.Ok Inv (fun _ _ _ => inv_step) (fun _ _ => step_dirs) hok inv_init
    rw [h] at hsim
    exact hsim.symm
  · intro d hd e he
    obtain ⟨l, r, hl, hr, hread⟩ := read_ok hi hd he
    refine ⟨l, r, _, hl, hread, hr.err, hr.rde, ?_, rfl⟩
    rw [hr.rde, Option.map_eq_none_iff, List.getElem?_eq_none_iff]

/-- a read that finds these entries, in a process whose memory is not clear -/
def finds (ents : List RduEnt) : ReadEnv :=
  ⟨true, false, ⟨false, false, true, 7⟩, ⟨false, .all ents, false, 0, plainLibc, some RduEnt.ino, false⟩⟩

theorem finds_ok (ents : List RduEnt) : (finds ents).Ok :=
  ⟨rfl, rfl, ⟨rfl, rfl⟩, rfl, ⟨ents, rfl⟩, rfl, fun _ => rfl, rfl, rfl⟩

/-- two streams; the first one is closed, and its descriptor and slot go to another one -/
def twoStreams : List Call :=
  [.opendir 3 false, .read 3 (finds []), .read 3 (finds twoBranches.flatten), .opendir 4 true,
    .read 4 (finds twoBranches.flatten), .telldir 3, .closedir 3 ⟨true, (finds []).new⟩, .opendir 3 false,
    .read 3 (finds (twoBranches.flatten.take 2)), .read 4 (finds [])]

/-- where `twoStreams` ends -/
def twoStreamsEnd : Sys :=
  let short := (finds (twoBranches.flatten.take 2)).init.listing
  let long := (finds twoBranches.flatten).init.listing
  ⟨⟨true, [⟨3, false, true, 1, some short, true⟩, ⟨4, false, false, 2, some long, true⟩], 8⟩,
    [⟨3, false, 1, [], some short⟩, ⟨4, true, 2, [], some long⟩]⟩

theorem twoStreams_ok : ∀ c ∈ twoStreams, c.Ok := by
  simp [twoStreams, Call.Ok, finds_ok, (finds_ok []).new]

theorem streams_independent_two :
    exec step init twoStreams = some twoStreamsEnd ∧ exec spec [] twoStreams = some twoStreamsEnd.dirs ∧
      ∀ d ∈ twoStreamsEnd.dirs, ∀ e : ReadEnv, e.Ok → ∃ l r s', d.reading e.init = some l ∧
        read twoStreamsEnd d.fd e = some (r, s') ∧ r.err = 0 ∧ r.rde = l[d.pos]?.map (dirent d.pos) ∧
        (r.rde = none ↔ l.length ≤ d.pos) ∧
        s'.dirs = update twoStreamsEnd.dirs d.fd fun d => { d with pos := d.pos + 1, listing := some l } :=
  ⟨by decide +kernel, streams_independent twoStreams twoStreamsEnd twoStreams_ok (by decide +kernel)⟩

end AufsUtil.Rdu
