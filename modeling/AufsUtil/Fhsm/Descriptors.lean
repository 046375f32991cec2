/-
The file descriptors of au_list (`fhsm/list.c`).

au_list opens the list directory, the list and the failed-list, and hands the last two to its caller. The descriptors
that are open are a table (`Lib/FdTable.lean`); every call may fail. `Fhsm.au_list` is the same function without them.

- `au_list_forgets`: without the descriptors it is `Fhsm.au_list`.
- `au_list_cases`: what au_list returns and which descriptors it leaves, in terms of the inputs.
- `descriptors_sound_iff`: it hands over two descriptors, or closes all it opened, except in two cases: the list
  directory is not set or cannot be opened, then it returns 0 with neither; or there is an old list and move_failed
  succeeds, then the directory stays open.

What the model keeps of C: err is 0 after au_shm_name, and is not set when the directory is not there.
-/
import Mathlib.Tactic
import AufsUtil.Lib.FdTable
import AufsUtil.Fhsm.List

namespace AufsUtil.Fhsm.Descriptors

open AufsUtil.CStr AufsUtil.FdTable

/-! ## au_list with its descriptors -/

/-- what a descriptor refers to: the list directory, or a file in it; or what the process had open before -/
inductive Obj where
  | dir
  | file (name : Bytes)
  | other
deriving DecidableEq, Repr

/-- the descriptors of the process, and the two variables of the caller -/
structure Proc where
  table : Table Obj
  listfd : ℤ
  failfd : ℤ

/-- au_shm_name and the system calls; the name starts with a slash -/
structure ListSys where
  name : Option Bytes
  list_dir : Bool
  open_dir : Bool
  open_list : Bool
  open_failed : Bool
  fstat : Bool
  move : MoveSys
  output : Option Listing
  cmd : ℤ

/-- "-failed" -/
def FAILED : Bytes := [45, 102, 97, 105, 108, 101, 100]

/-- name + 1 -/
def list_name (name : Bytes) : Bytes := name.drop 1

def failed_name (name : Bytes) : Bytes := list_name name ++ FAILED

def Proc.close (p : Proc) (fd : ℕ) : Proc := { p with table := p.table.closed fd }

def Proc.open_list (p : Proc) (name : Bytes) : Proc :=
  { p with table := p.table.opened (.file (list_name name)), listfd := p.table.lowest }

def Proc.open_failed (p : Proc) (name : Bytes) : Proc :=
  { p with table := p.table.opened (.file (failed_name name)), failfd := p.table.lowest }

/-- fstat(2) of the list and what follows, with the three descriptors open -/
def au_list_opened (fs : Files) (p : Proc) (sys : ListSys) (dirfd listfd failfd : ℕ) : Option ℤ × List FileOp × Proc :=
  let out_failfd := ((p.close failfd).close listfd).close dirfd
  if !sys.fstat then (some (-1), [], out_failfd)
  else if fs.list ≠ [] then
    match move_failed fs.failed sys.move with
    | (none, ops) => (none, ops, p)
    | (some err, ops) => (some err, ops, if err = 0 then p else out_failfd)
  else
    let ops := match sys.output with
      | none => []
      | some l => [.list_write (encode l.recs)]
    (some sys.cmd, ops, if sys.cmd = 0 then p.close dirfd else out_failfd)

/-- err, `none` if the process is gone, the changes to the files, and the descriptors -/
def au_list (fs : Files) (p : Proc) (sys : ListSys) : Option ℤ × List FileOp × Proc :=
  match sys.name with
  | none => (some (-1), [], p)
  | some name =>
    if !sys.list_dir then (some 0, [], p)
    else if !sys.open_dir then (some 0, [], p)
    else
      let dirfd := p.table.lowest
      let p := { p with table := p.table.opened .dir }
      if !sys.open_list then (some (-1), [], { p with listfd := -1 }.close dirfd)
      else
        let listfd := p.table.lowest
        let p := p.open_list name
        if !sys.open_failed then (some (-1), [], ({ p with failfd := -1 }.close listfd).close dirfd)
        else
          let failfd := p.table.lowest
          au_list_opened fs (p.open_failed name) sys dirfd listfd failfd

/-- what au_list returns before its fstat(2) -/
def ListSys.early (sys : ListSys) : Option ℤ :=
  match sys.name with
  | none => some (-1)
  | some _ =>
    if !sys.list_dir || !sys.open_dir then some 0 else if !sys.open_list || !sys.open_failed then some (-1) else none

/-- without the descriptors it is `Fhsm.au_list` -/
theorem au_list_forgets (fs : Files) (p : Proc) (sys : ListSys) :
    ((au_list fs p sys).1, (au_list fs p sys).2.1) =
      Fhsm.au_list fs ⟨sys.early, sys.fstat, sys.move, sys.output, sys.cmd⟩ := by
  unfold au_list Fhsm.au_list ListSys.early
  cases sys.name with
  | none => rfl
  | some name =>
    cases sys.list_dir
    · rfl
    cases sys.open_dir
    · rfl
    cases sys.open_list
    · rfl
    cases sys.open_failed
    · rfl
    simp only [Bool.not_true, Bool.false_eq_true, Bool.or_self, if_false]
    unfold au_list_opened
    cases sys.fstat
    · rfl
    by_cases hlist : fs.list ≠ []
    · simp only [Bool.not_true, Bool.false_eq_true, if_false, if_pos hlist]
      obtain ⟨err, ops⟩ := move_failed fs.failed sys.move
      cases err <;> rfl
    · simp only [Bool.not_true, Bool.false_eq_true, if_false, if_neg hlist]
      cases sys.output <;> rfl

/-! ## What it leaves open -/

/-- the list and the failed-list of the branch are open under new descriptors, which the caller
gets, and nothing else -/
structure HandedOver (name : Bytes) (p p' : Proc) : Prop where
  listfd : ∃ l : ℕ, p'.listfd = l ∧ l ∉ p.table.fds ∧ (l, .file (list_name name)) ∈ p'.table
  failfd : ∃ f : ℕ, p'.failfd = f ∧ f ∉ p.table.fds ∧ (f, .file (failed_name name)) ∈ p'.table
  distinct : p'.listfd ≠ p'.failfd
  only : ∀ e : ℕ × Obj, e ∈ p'.table ↔ e ∈ p.table ∨ e = (p'.listfd.toNat, .file (list_name name)) ∨
    e = (p'.failfd.toNat, .file (failed_name name))

/-- 0 comes with the two descriptors, an error with none -/
def Sound (fs : Files) (p : Proc) (sys : ListSys) : Prop :=
  ∀ err, (au_list fs p sys).1 = some err →
    (err = 0 → ∃ name, sys.name = some name ∧ HandedOver name p (au_list fs p sys).2.2) ∧
      (err ≠ 0 → (au_list fs p sys).2.2.table = p.table)

/-- the list directory is not set, or cannot be opened -/
def ListSys.no_dir (sys : ListSys) : Prop := sys.name.isSome = true ∧ (sys.list_dir = false ∨ sys.open_dir = false)

/-- all three can be opened -/
structure ListSys.Opens (sys : ListSys) : Prop where
  name : sys.name.isSome = true
  list_dir : sys.list_dir = true
  dir : sys.open_dir = true
  list : sys.open_list = true
  failed : sys.open_failed = true

/-- there is an old list, and the failed-list was moved to it -/
def ListSys.merged (sys : ListSys) (fs : Files) : Prop :=
  sys.Opens ∧ sys.fstat = true ∧ fs.list ≠ [] ∧ (move_failed fs.failed sys.move).1 = some 0

/-- the descriptors once all three are open -/
def all_open (p : Proc) (name : Bytes) : Proc :=
  (({ p with table := p.table.opened .dir }).open_list name).open_failed name

/-- the outcomes of au_list -/
inductive Listed (fs : Files) (p : Proc) (sys : ListSys) : Option ℤ × List FileOp × Proc → Prop
  | no_dir (h : sys.no_dir) : Listed fs p sys (some 0, [], p)
  | failed (hdir : ¬ sys.no_dir) (hmerged : ¬ sys.merged fs) (err : ℤ) (herr : err ≠ 0) (ops : List FileOp) (p' : Proc)
      (h : p'.table = p.table) : Listed fs p sys (some err, ops, p')
  | gone (hdir : ¬ sys.no_dir) (hmerged : ¬ sys.merged fs) (ops : List FileOp) (p' : Proc) :
      Listed fs p sys (none, ops, p')
  | merged (hdir : ¬ sys.no_dir) (h : sys.merged fs) (name : Bytes) (ops : List FileOp) :
      Listed fs p sys (some 0, ops, all_open p name)
  | listed (hdir : ¬ sys.no_dir) (hmerged : ¬ sys.merged fs) (name : Bytes) (hname : sys.name = some name)
      (ops : List FileOp) : Listed fs p sys (some 0, ops, (all_open p name).close p.table.lowest)

section Outcomes

variable (fs : Files) (p : Proc) (sys : ListSys)

/-- closing in the opposite order gives back what there was -/
theorem all_closed (name : Bytes) :
    ((((all_open p name).close (all_open p name).failfd.toNat).close (all_open p name).listfd.toNat).close
      p.table.lowest).table = p.table := by
  simp [all_open, Proc.open_list, Proc.open_failed, Proc.close]

/-- with all three open -/
theorem au_list_opened_cases {name : Bytes} (hname : sys.name = some name) (hopens : sys.Opens) :
    Listed fs p sys (au_list_opened fs (all_open p name) sys p.table.lowest (all_open p name).listfd.toNat
      (all_open p name).failfd.toNat) := by
  have hdir : ¬ sys.no_dir := fun h => by
    rcases h.2 with hno | hno
    · exact Bool.eq_false_iff.1 hno hopens.list_dir
    · exact Bool.eq_false_iff.1 hno hopens.dir
  have hclosed := all_closed p name
  unfold au_list_opened
  simp only
  by_cases hfstat : sys.fstat = true
  · have hgo : ¬ (!sys.fstat) = true := by simp [hfstat]
    rw [if_neg hgo]
    by_cases hlist : fs.list ≠ []
    · rw [if_pos hlist]
      -- the old list is used again
      cases hmove : move_failed fs.failed sys.move with
      | mk res ops =>
        cases res with
        | none =>
          have hno : ¬ sys.merged fs := by
            intro h
            have hzero := h.2.2.2
            rw [hmove] at hzero
            exact absurd hzero nofun
          exact .gone hdir hno ops _
        | some err =>
          by_cases herr : err = 0
          · subst herr
            exact .merged hdir ⟨hopens, hfstat, hlist, by rw [hmove]⟩ name ops
          · have hno : ¬ sys.merged fs := by
              intro h
              have hzero := h.2.2.2
              rw [hmove] at hzero
              exact herr (Option.some.inj hzero)
            simp only [if_neg herr]
            exact .failed hdir hno err herr ops _ hclosed
    · have hno : ¬ sys.merged fs := fun h => hlist h.2.2.1
      rw [if_neg hlist]
      by_cases hcmd : sys.cmd = 0
      · rw [if_pos hcmd, hcmd]
        exact .listed hdir hno name hname _
      · rw [if_neg hcmd]
        exact .failed hdir hno sys.cmd hcmd _ _ hclosed
  · have hstop : (!sys.fstat) = true := by simpa using hfstat
    rw [if_pos hstop]
    exact .failed hdir (fun h => hfstat h.2.1) (-1) (by decide) [] _ hclosed

theorem au_list_cases : Listed fs p sys (au_list fs p sys) := by
  unfold au_list
  cases hname : sys.name with
  | none =>
    have hno : sys.name.isSome ≠ true := by simp [hname]
    exact .failed (fun h => hno h.1) (fun h => hno h.1.name) (-1) (by decide) [] p rfl
  | some name =>
    have hsome : sys.name.isSome = true := by simp [hname]
    simp only
    cases hset : sys.list_dir with
    | false => exact .no_dir ⟨hsome, .inl hset⟩
    | true =>
    cases hopen : sys.open_dir with
    | false => exact .no_dir ⟨hsome, .inr hopen⟩
    | true =>
    have hdir : ¬ sys.no_dir := by simp [ListSys.no_dir, hset, hopen]
    cases hlist : sys.open_list with
    | false =>
      have hno : ¬ sys.merged fs := fun h => Bool.eq_false_iff.1 hlist h.1.list
      exact .failed hdir hno (-1) (by decide) [] _ (closed_opened _ _)
    | true =>
    cases hfailed : sys.open_failed with
    | false =>
      have hno : ¬ sys.merged fs := fun h => Bool.eq_false_iff.1 hfailed h.1.failed
      refine .failed hdir hno (-1) (by decide) [] _ ?_
      simp [Proc.close, Proc.open_list]
    | true => exact au_list_opened_cases fs p sys hname ⟨hsome, hset, hopen, hlist, hfailed⟩

/-- nothing new is open, so nothing was handed over -/
theorem not_handedOver_self (name : Bytes) : ¬ HandedOver name p p := by
  intro h
  obtain ⟨l, -, hnew, hmem⟩ := h.listfd
  exact hnew (List.mem_map_of_mem hmem)

/-- the directory is still open -/
theorem not_handedOver_all_open (name name' : Bytes) : ¬ HandedOver name p (all_open p name') := by
  intro h
  have hdir : (p.table.lowest, Obj.dir) ∈ (all_open p name').table := by
    simp [all_open, Proc.open_list, Proc.open_failed, Table.opened]
  rcases (h.only _).1 hdir with hold | heq | heq
  · exact lowest_free p.table (List.mem_map_of_mem hold)
  · cases (Prod.mk.inj heq).2
  · cases (Prod.mk.inj heq).2

theorem handedOver_listed (name : Bytes) : HandedOver name p ((all_open p name).close p.table.lowest) := by
  set dirfd := p.table.lowest with hdirfd
  set t₁ := p.table.opened .dir with ht₁
  set t₂ := t₁.opened (.file (list_name name)) with ht₂
  have hdir₁ : dirfd ∈ t₁.fds := by simp [ht₁, Table.opened, Table.fds, hdirfd]
  have hdir₂ : dirfd ∈ t₂.fds := List.mem_cons_of_mem _ hdir₁
  have hlist₂ : t₁.lowest ∈ t₂.fds := List.mem_cons_self
  have hold : ∀ fd, fd ∈ p.table.fds → fd ∈ t₁.fds ∧ fd ∈ t₂.fds := by
    intro fd hfd
    have h₁ : fd ∈ t₁.fds := List.mem_cons_of_mem _ hfd
    exact ⟨h₁, List.mem_cons_of_mem _ h₁⟩
  have htable : ((all_open p name).close dirfd).table =
      (t₂.lowest, .file (failed_name name)) :: (t₁.lowest, .file (list_name name)) :: p.table := by
    have hclose : t₁.closed dirfd = p.table := closed_opened _ _
    calc ((all_open p name).close dirfd).table
        = Table.closed ((t₂.lowest, .file (failed_name name)) :: (t₁.lowest, .file (list_name name)) :: t₁) dirfd := rfl
      _ = _ := by rw [closed_cons _ (lowest_ne hdir₂), closed_cons _ (lowest_ne hdir₁), hclose]
  have hl : ((all_open p name).close dirfd).listfd = t₁.lowest := rfl
  have hf : ((all_open p name).close dirfd).failfd = t₂.lowest := rfl
  refine ⟨⟨t₁.lowest, hl, fun h => lowest_free t₁ (hold _ h).1, ?_⟩,
    ⟨t₂.lowest, hf, fun h => lowest_free t₂ (hold _ h).2, ?_⟩, ?_, ?_⟩
  · rw [htable]
    simp
  · rw [htable]
    simp
  · rw [hl, hf]
    exact_mod_cast (lowest_ne hlist₂).symm
  · intro e
    rw [htable, hl, hf, Int.toNat_natCast, Int.toNat_natCast, List.mem_cons, List.mem_cons]
    tauto

/-- **au_list hands over its descriptors, or closes them, except in two cases.** For every combination of succeeding and
failing steps: it does if and only if the list directory is there, and no old list was merged with the failed-list. -/
theorem descriptors_sound_iff : Sound fs p sys ↔ ¬ sys.no_dir ∧ ¬ sys.merged fs := by
  unfold Sound
  have hcases := au_list_cases fs p sys
  generalize au_list fs p sys = r at hcases
  cases hcases with
  | no_dir h =>
    refine iff_of_false (fun hsound => ?_) fun hno => hno.1 h
    obtain ⟨name, -, hover⟩ := (hsound 0 rfl).1 rfl
    exact not_handedOver_self p name hover
  | failed hdir hmerged err herr ops p' htable =>
    refine iff_of_true (fun err' herr' => ?_) ⟨hdir, hmerged⟩
    obtain rfl := Option.some.inj herr'
    exact ⟨fun h0 => absurd h0 herr, fun _ => htable⟩
  | gone hdir hmerged ops p' => exact iff_of_true nofun ⟨hdir, hmerged⟩
  | merged hdir h name ops =>
    refine iff_of_false (fun hsound => ?_) fun hno => hno.2 h
    obtain ⟨name', -, hover⟩ := (hsound 0 rfl).1 rfl
    exact not_handedOver_all_open p name' name hover
  | listed hdir hmerged name hname ops =>
    refine iff_of_true (fun err herr => ?_) ⟨hdir, hmerged⟩
    obtain rfl := Option.some.inj herr
    exact ⟨fun _ => ⟨name, hname, handedOver_listed p name⟩, fun h0 => absurd rfl h0⟩

end Outcomes

/-- a lister that writes nothing, and a directory that can be opened or not -/
def dir_opens (b : Bool) : ListSys :=
  ⟨some [47, 97], true, b, true, true, true, ⟨true, true, true, .full, true, [], 0⟩, some ⟨[], by simp⟩, 0⟩

/-- the list directory cannot be opened: 0, and no descriptors -/
theorem no_descriptors : ¬ Sound ⟨[], [], []⟩ ⟨[], 0, 0⟩ (dir_opens false) := by
  intro h
  obtain ⟨name, -, hover⟩ := (h 0 rfl).1 rfl
  exact not_handedOver_self _ name hover

end AufsUtil.Fhsm.Descriptors
