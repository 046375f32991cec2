/-
Mount helpers that update /etc/mtab at the same time (`mtab.c`, au_update_mtab).

A run is a process and its child. The parent makes a file MTab~.PID with O_EXCL, forks, and waits. The child takes the
lock by linking that file to MTab~, copies MTab into it with its own entry added or replaced, and commits by renaming
MTab~ to MTab: lock, new contents and commit are one inode. When the child is gone the parent unlinks MTab~.PID and,
if MTab~ is still the inode of its file, MTab~ too.

- `Update.apply`: what one update makes of a table.
- `Sys`: the three kinds of names, the inodes with their contents and numbers, and the runs.
- `step`: one atomic step of one process: a system call, or one entry read and written by the child.

What the model keeps of C:
- names and inodes are apart: two names may lead to one inode, rename of two links to one inode does nothing;
- an inode number (st_dev, st_ino) may be used again once its inode has no name and no parent that holds it open;
- link, rename, unlink and stat may fail for reasons of their own; link is tried five times;
- the two passes over MTab of a remount, entry by entry (a position is the index of an entry);
- every error of the child, and every AuFin, is its death, which may leave anything in its own file;
- a parent whose waitpid fails returns without cleaning up, and a parent may die too.
The table is what getmntent reads of a file; addmntent appends an entry and flushes it. fstat of the open file succeeds.
The descriptors of the child, the fcntl lock (nobody looks at it) and the messages are left out.
-/
import Mathlib.Tactic
import AufsUtil.Lib.CStr

namespace AufsUtil.Mtab

open AufsUtil.CStr

/-! ## Tables -/

/-- struct mntent -/
structure Mntent where
  fsname : Bytes
  dir : Bytes
  type : Bytes
  opts : Bytes
  freq : ℤ
  passno : ℤ
deriving DecidableEq, Repr

abbrev Table := List Mntent

/-- the arguments of au_update_mtab -/
structure Job where
  mntpnt : Bytes
  do_remount : Bool
deriving DecidableEq, Repr

/-- the index of the last entry for the mount point -/
def last_index (mntpnt : Bytes) : Table → Option ℕ
  | [] => none
  | p :: T =>
    match last_index mntpnt T with
    | some k => some (k + 1)
    | none => if p.dir = mntpnt then some 0 else none

/-- what a run does to the table: with `do_remount` the last entry for the mount point is replaced, if there is one;
else the entry is added at the end -/
structure Update where
  job : Job
  ent : Mntent
deriving DecidableEq, Repr

def Update.apply (u : Update) (T : Table) : Table :=
  match if u.job.do_remount then last_index u.job.mntpnt T else none with
  | some k => T.set k u.ent
  | none => T ++ [u.ent]

/-! ## The processes -/

/-- where the parent stands in au_update_mtab; a number is what fstat returned -/
inductive Parent where
  | opened
  | forked
  | waiting (num : ℕ × ℕ)
  | reaped (num : ℕ × ℕ)
  | unlinked (num : ℕ × ℕ)
  /-- MTab~ has the number of its file -/
  | removing
  | closing
  | done
  | dead
deriving DecidableEq, Repr

/-- where the child stands: `j` is the inode of MTab that it has open, `i` the entry it reads next -/
inductive Child where
  | none
  | locking (left : ℕ)
  | locked
  | looked (ent : Mntent)
  | scanning (ent : Mntent) (j i : ℕ) (pos : Option ℕ)
  | replacing (ent : Mntent) (j i : ℕ) (pos : Option ℕ)
  | appending (ent : Mntent) (j i : ℕ)
  | written (ent : Mntent)
  | renamed
  | gone
deriving DecidableEq, Repr

/-- has the file open -/
def Parent.isOpen : Parent → Bool
  | .done | .dead => false
  | _ => true

/-- waitpid has returned the child -/
def Parent.hasReaped : Parent → Bool
  | .reaped _ | .unlinked _ | .removing | .closing => true
  | _ => false

def Parent.saved : Parent → Option (ℕ × ℕ)
  | .waiting n | .reaped n | .unlinked n => some n
  | _ => Option.none

/-- between link and rename -/
def Child.holds : Child → Bool
  | .locked | .looked _ | .scanning .. | .replacing .. | .appending .. | .written _ => true
  | _ => false

def Child.running : Child → Bool
  | .none | .gone => false
  | _ => true

/-- not gone, and its rename has not happened -/
def Child.before : Child → Bool
  | .renamed | .gone => false
  | _ => true

/-- `pid_linked`: MTab~.PID was made by this run and not unlinked by it (history) -/
structure Run where
  job : Job
  pid : ℕ
  parent : Parent
  child : Child
  pid_linked : Bool
deriving DecidableEq, Repr

/-! ## The system -/

/-- inodes are numbered as they are made: 0 is the first table, `file r` is what run r makes -/
def file (r : ℕ) : ℕ := r + 1

structure Sys where
  /-- the inode that MTab leads to -/
  mtab : ℕ
  /-- MTab~: its inode and (history) the run that linked it -/
  lock : Option (ℕ × ℕ)
  /-- MTab~.PID -/
  pidf : ℕ → Option ℕ
  data : ℕ → Table
  /-- st_dev and st_ino -/
  num : ℕ → ℕ × ℕ
  nruns : ℕ
  runs : ℕ → Run
  /-- history: the renames to MTab that returned 0 -/
  renames : List (ℕ × Update)

/-- no run has begun; MTab is a file with the table T -/
def init (T : Table) (num : ℕ × ℕ) : Sys :=
  ⟨0, none, fun _ => none, fun _ => T, fun _ => num, 0, fun _ => ⟨⟨[], false⟩, 0, .dead, .gone, false⟩, []⟩

/-- the inode of run r's file has its name MTab~.PID, or is open in its parent -/
def Run.keeps (x : Run) : Bool := x.pid_linked || x.parent.isOpen

/-- a number that no live inode has -/
def Sys.Unused (s : Sys) (n : ℕ × ℕ) : Prop :=
  s.num s.mtab ≠ n ∧ (∀ l ∈ s.lock, s.num l.1 ≠ n) ∧ ∀ r < s.nruns, (s.runs r).keeps = true → s.num (file r) ≠ n

instance (s : Sys) (n : ℕ × ℕ) : Decidable (s.Unused n) := by
  unfold Sys.Unused; infer_instance

/-- `ok` says whether the call returned without an error of its own -/
inductive Ev where
  /-- the parent: open MTab~.PID; the kernel gives the new inode a number -/
  | openx (job : Job) (pid : ℕ) (num : ℕ × ℕ)
  | fork
  | fstat
  | waitpid (ok : Bool)
  | unlink_pid (ok : Bool)
  | stat_lock (ok : Bool)
  | unlink_lock (ok : Bool)
  | fclose
  | kill
  /-- the child: one try of link -/
  | link (ok : Bool)
  | proc_getmntent (ent : Mntent)
  | setmntent
  /-- one turn of one of its loops over MTab -/
  | getmntent
  | rename (ok : Bool)
  | exit
  | die (junk : Table)
deriving DecidableEq, Repr

def Sys.put (s : Sys) (r : ℕ) (x : Run) : Sys := { s with runs := Function.update s.runs r x }

def Sys.write (s : Sys) (r : ℕ) (T : Table) : Sys := { s with data := Function.update s.data (file r) T }

/-- addmntent to the file of run r -/
def Sys.addmntent (s : Sys) (r : ℕ) (p : Mntent) : Sys := s.write r (s.data (file r) ++ [p])

/-- one turn of a loop over MTab: the next entry, or the end of the file -/
def copy_turn (s : Sys) (r : ℕ) (x : Run) : Option Sys :=
  match x.child with
  | .scanning ent j i pos =>
    match (s.data j)[i]? with
    | some p => some (s.put r { x with child := .scanning ent j (i + 1) (if p.dir = x.job.mntpnt then some i else pos) })
    | none =>
      match pos with
      | some k => some (s.put r { x with child := .replacing ent j 0 (some k) })
      | none => some (s.put r { x with child := .appending ent j 0 })
  | .replacing ent j i pos =>
    match (s.data j)[i]? with
    | some p =>
      if pos = some i then some ((s.addmntent r ent).put r { x with child := .replacing ent j (i + 1) none })
      else some ((s.addmntent r p).put r { x with child := .replacing ent j (i + 1) pos })
    | none => some (s.put r { x with child := if pos.isSome then .gone else .written ent })
  | .appending ent j i =>
    match (s.data j)[i]? with
    | some p => some ((s.addmntent r p).put r { x with child := .appending ent j (i + 1) })
    | none => some ((s.addmntent r ent).put r { x with child := .written ent })
  | _ => none

def parent_step (s : Sys) (r : ℕ) (x : Run) : Ev → Option Sys
  | .openx job pid num =>
    if r = s.nruns ∧ s.pidf pid = none ∧ s.Unused num then
      some { s with
        pidf := Function.update s.pidf pid (some (file r))
        data := Function.update s.data (file r) []
        num := Function.update s.num (file r) num
        nruns := s.nruns + 1
        runs := Function.update s.runs r ⟨job, pid, .opened, .none, true⟩ }
    else none
  | .fork => if x.parent = .opened then some (s.put r { x with parent := .forked, child := .locking 5 }) else none
  | .fstat => if x.parent = .forked then some (s.put r { x with parent := .waiting (s.num (file r)) }) else none
  | .waitpid ok =>
    match x.parent with
    | .waiting n =>
      if !ok then some (s.put r { x with parent := .done })
      else if x.child = .gone then some (s.put r { x with parent := .reaped n })
      else none
    | _ => none
  | .unlink_pid ok =>
    match x.parent with
    | .reaped n =>
      if ok then
        some ({ s with pidf := Function.update s.pidf x.pid none }.put r
          { x with parent := .unlinked n, pid_linked := false })
      else some (s.put r { x with parent := .unlinked n })
    | _ => none
  | .stat_lock ok =>
    match x.parent with
    | .unlinked n =>
      some (s.put r { x with parent := if ok && s.lock.any fun l => s.num l.1 = n then .removing else .closing })
    | _ => none
  | .unlink_lock ok =>
    if x.parent = .removing then
      some ((if ok then { s with lock := none } else s).put r { x with parent := .closing })
    else none
  | .fclose => if x.parent = .closing then some (s.put r { x with parent := .done }) else none
  | .kill => if x.parent.isOpen then some (s.put r { x with parent := .dead }) else none
  | _ => none

def child_step (s : Sys) (r : ℕ) (x : Run) : Ev → Option Sys
  | .link ok =>
    match x.child with
    | .locking (n + 1) =>
      match ok, s.pidf x.pid, s.lock with
      | true, some i, none => some ({ s with lock := some (i, r) }.put r { x with child := .locked })
      | _, _, _ => some (s.put r { x with child := if n = 0 then .gone else .locking n })
    | _ => none
  | .proc_getmntent ent => if x.child = .locked then some (s.put r { x with child := .looked ent }) else none
  | .setmntent =>
    match x.child with
    | .looked ent =>
      some (s.put r { x with child := if x.job.do_remount then .scanning ent s.mtab 0 none else .appending ent s.mtab 0 })
    | _ => none
  | .getmntent => copy_turn s r x
  | .rename ok =>
    match x.child with
    | .written ent =>
      match ok, s.lock with
      | true, some (i, _) =>
        let u : Update := ⟨x.job, ent⟩
        -- rename does nothing when both names are links to one inode
        let s' := if i = s.mtab then s else { s with mtab := i, lock := none }
        some ({ s' with renames := s.renames ++ [(r, u)] }.put r { x with child := .renamed })
      | _, _ => some (s.put r { x with child := .gone })
    | _ => none
  | .exit => if x.child = .renamed then some (s.put r { x with child := .gone }) else none
  | .die junk =>
    if x.child.running then
      some ((if x.child.before then s.write r junk else s).put r { x with child := .gone })
    else none
  | _ => none

/-- one step of the parent or of the child of run r -/
def step (s : Sys) (a : ℕ × Ev) : Option Sys :=
  match a.2 with
  | .openx .. | .fork | .fstat | .waitpid _ | .unlink_pid _ | .stat_lock _ | .unlink_lock _ | .fclose | .kill =>
    parent_step s a.1 (s.runs a.1) a.2
  | _ => child_step s a.1 (s.runs a.1) a.2

end AufsUtil.Mtab
