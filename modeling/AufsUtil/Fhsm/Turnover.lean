/-
When a child stops moving files down (`mvdown_child`, `test_usage` and `do_mvdown` in `fhsm/mvdown.c`).

The loop polls the message and the signals, moves the last file of the list down, and goes on while do_mvdown returns a
positive value, no next branch is named and the current branch is below its upper watermark. A state of the loop is a
`Child`; one turn of it is `child_step`, whose input (`Poll`) says what message and signal are there and how the system
calls turn out. The files are not restricted: whatever the list holds, `take_last` says what one turn makes of it.

- `do_mvdown_cases`: what one do_mvdown returns, in terms of its inputs.
- `stops_documented_iff`: the child leaves the loop only for a documented reason if and only if no file was finished
  (moved, vanished or refused with EROFS) while names are left and no watermark is reached: do_mvdown returns 0 then.

What the model keeps of C:
- a free ratio is compared as a rational; with 0 blocks (or inodes) the quotient is infinite or no number, and the
  comparison is false (`ratio_lt`);
- `mvdown` is static: its fields survive from file to file and from call to call, so its first value is arbitrary.
The table `lcopy` and the branches do not change while the loop runs.
-/
import Mathlib.Tactic
import AufsUtil.Lib.Runs
import AufsUtil.Fhsm.Table
import AufsUtil.Fhsm.Drain
import AufsUtil.Fhsm.Mvdown

namespace AufsUtil.Fhsm

open AufsUtil.CStr AufsUtil.SortSearch AufsUtil.Runs

/-! ## Watermarks -/

/-- struct aufs_stfs -/
structure Stfs where
  f_blocks : ℕ
  f_bavail : ℕ
  f_files : ℕ
  f_ffree : ℕ
deriving DecidableEq, Repr

/-- free / total < w -/
def ratio_lt (free total : ℕ) (w : ℚ) : Bool := total != 0 && decide ((free : ℚ) / total < w)

section Marks

variable (bw : Bsearch bridOrd (Wmark.brid (F := ℚ))) (lcopy : Aufhsm ℚ)

def wmark_of (brid : ℤ) : Option (Wmark ℚ) := (au_wm_search_brid bw brid lcopy).bind fun k => lcopy.wmark[k]?

def test_usage (stbr : Stbr Stfs) : Bool :=
  match wmark_of bw lcopy stbr.brid with
  | some wm =>
    ratio_lt stbr.stfs.f_bavail stbr.stfs.f_blocks wm.block.1 ||
      (decide (wm.inode.1 < 1) && ratio_lt stbr.stfs.f_ffree stbr.stfs.f_files wm.inode.1)
  | none => false

/-- the same test against the lower watermark, which the code does not make: the free ratio has come up to it -/
def reached_lower (stbr : Stbr Stfs) : Bool :=
  match wmark_of bw lcopy stbr.brid with
  | some wm =>
    !(ratio_lt stbr.stfs.f_bavail stbr.stfs.f_blocks wm.block.2 ||
      (decide (wm.inode.1 < 1) && ratio_lt stbr.stfs.f_ffree stbr.stfs.f_files wm.inode.2))
  | none => true

end Marks

/-! ## One file -/

section File

variable {S : Type}

/-- the flag `done` of do_mvdown1 -/
def MvSys.done (sys : MvSys S) : Bool :=
  match sys.openat, sys.ioctl with
  | some _, _ | none, none | none, some .EROFS => true
  | none, some _ => false

/-- do_mvdown1 returns 0 -/
def MvSys.passes (o failed : Bytes) (fname : Fname) (sys : MvSys S) : Bool :=
  match sys.openat, sys.ioctl with
  | some .ENOENT, _ => true
  | none, none | none, some .EROFS | none, some .EINVAL => sys.close
  | none, some .EBUSY =>
    sys.close && if sys.nlink = 1 then (au_fname_failed o fname failed sys.write sys.undo).1 == 0 else sys.fstat
  | some _, _ | none, some _ => false

/-- do_mvdown1 is through with the file: it was moved, vanished or was refused with EROFS -/
def MvSys.finished (sys : MvSys S) : Bool :=
  match sys.openat, sys.ioctl with
  | some .ENOENT, _ => true
  | none, none | none, some .EROFS => sys.close
  | some _, _ | none, some _ => false

/-- `mvdown` after the call: the kernel fills it in if the file could be opened -/
def MvSys.filled (sys : MvSys S) (m : Mvdown S) : Mvdown S := if sys.openat = none then sys.answer else m

/-- the ioctl succeeded and reported the statistics of both branches -/
def MvSys.reports (sys : MvSys S) : Bool :=
  decide (sys.openat = none) && decide (sys.ioctl = none) && !sys.answer.stfs_failed

theorem finished_iff (sys : MvSys S) (o failed : Bytes) (fname : Fname) :
    sys.finished = true ↔ sys.passes o failed fname = true ∧ sys.done = true := by
  unfold MvSys.finished MvSys.passes MvSys.done
  rcases sys.openat with _ | (_ | _ | _ | _ | _ | _) <;> rcases sys.ioctl with _ | (_ | _ | _ | _ | _ | _) <;> simp

/-- a change to the failed-list -/
def FileOp.OnFailed : FileOp → Prop
  | .failed_append _ | .failed_truncate _ => True
  | _ => False

theorem apply_all_list {ops : List FileOp} (h : ∀ op ∈ ops, op.OnFailed) (fs : Files) :
    (apply_all fs ops).list = fs.list := by
  induction ops generalizing fs with
  | nil => rfl
  | cons op ops ih =>
    have hop := h op List.mem_cons_self
    have hstep : (op.apply fs).list = fs.list := by
      cases op with
      | failed_append b => rfl
      | failed_truncate len => rfl
      | list_append b => exact hop.elim
      | list_truncate len x => exact hop.elim
      | list_write b => exact hop.elim
    exact (ih (fun q hq => h q (List.mem_cons_of_mem op hq)) _).trans hstep

theorem au_fname_failed_cases (o : Bytes) (fname : Fname) (failed : Bytes) (write : WriteRes) (ftr : Bool) :
    ((au_fname_failed o fname failed write ftr).1 = 0 ∨ (au_fname_failed o fname failed write ftr).1 = -1) ∧
      ∀ op ∈ (au_fname_failed o fname failed write ftr).2, op.OnFailed := by
  unfold au_fname_failed
  simp only
  set l := toInt ((strlen o fname.atime : ℤ) + 1)
  by_cases hfull : write.count l.toNat = l
  · rw [if_pos hfull]
    exact ⟨Or.inl rfl, by simp [FileOp.OnFailed]⟩
  by_cases hpos : write.count l.toNat > 0
  · rw [if_neg hfull, if_pos hpos]
    refine ⟨Or.inr rfl, ?_⟩
    intro op hop
    rcases List.mem_cons.1 hop with rfl | hop
    · trivial
    · -- the cut that undoes a partial write
      split at hop
      · by_cases hftr : ftr = true
        · rw [if_pos hftr, List.mem_singleton] at hop
          rw [hop]
          trivial
        · rw [if_neg hftr] at hop
          simp at hop
      · simp at hop
  · rw [if_neg hfull, if_neg hpos]
    exact ⟨Or.inr rfl, by simp⟩

/-- do_mvdown1 in terms of its inputs -/
theorem do_mvdown1_cases (o failed : Bytes) (fname : Fname) (sys : MvSys S) (m : Mvdown S) :
    ((do_mvdown1 o failed fname sys m).1 = if sys.passes o failed fname then 0 else -1) ∧
      (do_mvdown1 o failed fname sys m).2.1 = sys.done ∧ (do_mvdown1 o failed fname sys m).2.2.1 = sys.filled m ∧
      ∀ op ∈ (do_mvdown1 o failed fname sys m).2.2.2, op.OnFailed := by
  unfold do_mvdown1 MvSys.passes MvSys.done MvSys.filled close_err
  rcases hopen : sys.openat with _ | e
  · rcases hio : sys.ioctl with _ | e
    · simp
    · cases e with
      | EBUSY =>
        obtain ⟨herr, hops⟩ := au_fname_failed_cases o fname failed sys.write sys.undo
        by_cases hn : sys.nlink = 1
        · simp only [hn, if_true]
          refine ⟨?_, trivial, trivial, hops⟩
          rcases herr with h | h <;> simp [h]
        · simp only [hn, if_false]
          refine ⟨?_, trivial, rfl, by simp⟩
          cases sys.fstat <;> simp
      | _ => simp
  · cases e <;> simp

/-- `mvdown` as do_mvdown hands it to the ioctl: new flags, the current branch, and what was there before -/
def request (cur : ℕ) (st : MvState S) : Mvdown S :=
  ⟨false, false, ⟨((st.stbr[cur]?).map Stbr.brid).getD 0, st.mvdown.upper.stfs⟩, st.mvdown.lower⟩

/-- the globals once the record was cut off and the list o is left -/
def after_cut (cur : ℕ) (sys : MvSys S) (o : Bytes) (st : MvState S) : MvState S :=
  { st with mvdown := sys.filled (request cur st), next := none, listsz := o.length }

/-- what one do_mvdown returns: it fails; or it cuts a record off, and asks for the next file or
stores the statistics -/
theorem do_mvdown_cases (bs : Bsearch (compare : ℤ → ℤ → Ordering) (Stbr.brid (S := S))) (fs : Files) (st : MvState S)
    (hsz : st.listsz = fs.list.length) (cur : ℕ) (sys : MvSys S) {r : Bytes × Bytes} {o : Bytes}
    (hlast : take_last fs.list = some (r, o)) :
    ∃ fname ops, au_fname_one fs.list fs.list.length = some fname ∧ (do_mvdown bs fs st cur sys).2 = ops ∧
      (((sys.passes fs.list fs.failed fname && sys.ftr) = false ∧
          (do_mvdown bs fs st cur sys).1 = some (-1, { st with mvdown := sys.filled (request cur st) })) ∨
        ((sys.passes fs.list fs.failed fname && sys.ftr) = true ∧ (apply_all fs ops).list = o ∧
          (do_mvdown bs fs st cur sys).1 =
            if o ≠ [] ∧ sys.done = false then some (1, after_cut cur sys o st)
            else (store_stbr bs cur (after_cut cur sys o st)).map fun st => (0, st))) := by
  obtain ⟨fname, hone, hres⟩ := Option.map_eq_some_iff.1 hlast
  obtain ⟨-, rfl⟩ := Prod.mk.inj hres
  refine ⟨fname, _, hone, rfl, ?_⟩
  have hnat : st.listsz.toNat = fs.list.length := by omega
  obtain ⟨-, hle, -⟩ := au_fname_one_len hone
  have hcut : st.listsz - fname.len = (ftruncate fs.list ((fs.list.length : ℤ) - fname.len).toNat).length := by
    rw [length_ftruncate]
    omega
  have hone' : au_fname_one fs.list st.listsz.toNat = some fname := hnat.symm ▸ hone
  unfold do_mvdown
  rw [hone']
  simp only
  obtain ⟨herr, hdone, hm, hops⟩ := do_mvdown1_cases fs.list fs.failed fname sys (request cur st)
  rw [request] at herr hdone hm hops
  rw [herr, hdone, hm]
  unfold mvdown_cut
  simp only [hcut]
  set o := ftruncate fs.list ((fs.list.length : ℤ) - fname.len).toNat
  cases hp : sys.passes fs.list fs.failed fname with
  | false =>
    left
    simp [request]
  | true =>
    cases hf : sys.ftr with
    | false =>
      left
      simp [request]
    | true =>
      right
      have hzero : ((o.length : ℤ) ≠ 0 ∧ sys.done = false) ↔ (o ≠ [] ∧ sys.done = false) := by
        rw [Ne, Int.natCast_eq_zero, List.length_eq_zero_iff]
      have hlist : ∀ x, (apply_all fs ((do_mvdown1 fs.list fs.failed fname sys (request cur st)).2.2.2 ++
          [.list_truncate o.length x])).list = o := by
        intro x
        have htr : ftruncate fs.list o.length = o := by
          rw [length_ftruncate]
        rw [apply_all_append]
        cases x <;> exact (congrArg (ftruncate · o.length) (apply_all_list hops fs)).trans htr
      simp only [if_true, if_false, ne_eq, not_true_eq_false, Bool.not_true, Bool.false_eq_true, Bool.and_self, true_and]
      by_cases hgo : o ≠ [] ∧ sys.done = false
      · rw [if_pos hgo, if_pos (hzero.2 hgo)]
        exact ⟨hlist _, rfl⟩
      · rw [if_neg hgo, if_neg (mt hzero.1 hgo)]
        exact ⟨hlist _, rfl⟩

end File

/-! ## The loop -/

/-- one turn of the loop: whether the message is EXIT, whether a signal is pending, and the system calls of do_mvdown -/
structure Poll where
  exit : Bool
  signal : Bool
  sys : MvSys Stfs

/-- how the loop was left; `gone` is AuLogFin or a failed assertion -/
inductive Left where
  | exit
  | signal
  | gone
  | ret (err : ℤ)
deriving DecidableEq, Repr

structure Child where
  files : Files
  st : MvState Stfs
  left : Option Left
  /-- the statistics that the kernel has reported to this child -/
  reports : List (Stbr Stfs)

section Loop

variable (bs : Bsearch (compare : ℤ → ℤ → Ordering) (Stbr.brid (S := Stfs)))
  (bw : Bsearch bridOrd (Wmark.brid (F := ℚ))) (lcopy : Aufhsm ℚ) (cur : ℕ)

def cur_usage (st : MvState Stfs) : Bool :=
  match st.stbr[cur]? with
  | some stbr => test_usage bw lcopy stbr
  | none => false

/-- what the kernel reports in this turn -/
def reported (c : Child) (p : Poll) : List (Stbr Stfs) :=
  if (take_last c.files.list).isSome && p.sys.reports then [p.sys.answer.upper, p.sys.answer.lower] else []

/-- one turn of the loop of mvdown_child; `none` once it was left -/
def child_step (c : Child) (p : Poll) : Option Child :=
  if c.left.isSome then none
  else if p.exit then some { c with left := some .exit }
  else if p.signal then some { c with left := some .signal }
  else
    let reports := c.reports ++ reported c p
    match do_mvdown bs c.files c.st cur p.sys with
    | (none, ops) => some ⟨apply_all c.files ops, c.st, some .gone, reports⟩
    | (some (err, st), ops) =>
      let stop := decide (err ≤ 0) || st.next.isSome || !cur_usage bw lcopy cur st
      some ⟨apply_all c.files ops, st, if stop then some (.ret err) else none, reports⟩

/-- what holds when the loop is entered: au_mvdown_run has tested the usage of the branch, mvdown_child the size of the
list -/
structure Start where
  files : Files
  mvdown : Mvdown Stfs
  stbr : List (Stbr Stfs)
  list_ne : files.list ≠ []
  usage : cur_usage bw lcopy cur ⟨files.list.length, mvdown, stbr, none⟩ = true

def Start.child (s : Start bw lcopy cur) : Child :=
  ⟨s.files, ⟨s.files.list.length, s.mvdown, s.stbr, none⟩, none, []⟩

/-- the state at the top of the loop -/
structure Looping (c : Child) : Prop where
  listsz : c.st.listsz = c.files.list.length
  usage : cur_usage bw lcopy cur c.st = true
  next : c.st.next = none
  reports : c.reports = []

/-- the outcomes of one turn -/
inductive Turned (c : Child) (p : Poll) (c' : Child) : Prop
  | polled (h : p.exit = true ∨ p.signal = true) (hst : c'.st = c.st) (hleft : c'.left ≠ none)
  | empty (h : take_last c.files.list = none) (hst : c'.st = c.st) (hleft : c'.left = some .gone)
  | failed (r : Bytes × Bytes) (o : Bytes) (fname : Fname) (hlast : take_last c.files.list = some (r, o))
      (hone : au_fname_one c.files.list c.files.list.length = some fname)
      (hpass : (p.sys.passes c.files.list c.files.failed fname && p.sys.ftr) = false)
      (hst : c'.st = { c.st with mvdown := p.sys.filled (request cur c.st) }) (hleft : c'.left = some (.ret (-1)))
  | skipped (r : Bytes × Bytes) (o : Bytes) (hlast : take_last c.files.list = some (r, o)) (hne : o ≠ [])
      (hdone : p.sys.done = false) (hlist : c'.files.list = o) (hst : c'.st = after_cut cur p.sys o c.st)
      (hrep : c'.reports = c.reports ++ reported c p) (hleft : c'.left = none)
  | stored (hpoll : p.exit = false ∧ p.signal = false) (r : Bytes × Bytes) (o : Bytes) (fname : Fname)
      (hlast : take_last c.files.list = some (r, o)) (hone : au_fname_one c.files.list c.files.list.length = some fname)
      (hpass : (p.sys.passes c.files.list c.files.failed fname && p.sys.ftr) = true)
      (hdone : o = [] ∨ p.sys.done = true) (hlist : c'.files.list = o)
      (hst : (store_stbr bs cur (after_cut cur p.sys o c.st) = some c'.st ∧ c'.left = some (.ret 0)) ∨
        (store_stbr bs cur (after_cut cur p.sys o c.st) = none ∧ c'.st = c.st ∧ c'.left = some .gone))

theorem child_step_cases {c c' : Child} {p : Poll} (hc : Looping bw lcopy cur c)
    (h : child_step bs bw lcopy cur c p = some c') : c.left = none ∧ Turned bs cur c p c' := by
  unfold child_step at h
  by_cases hl : c.left.isSome = true
  · rw [if_pos hl] at h
    cases h
  refine ⟨by simpa using hl, ?_⟩
  by_cases hexit : p.exit = true
  · rw [if_neg hl, if_pos hexit] at h
    cases h
    exact .polled (Or.inl hexit) rfl (by simp)
  by_cases hsig : p.signal = true
  · rw [if_neg hl, if_neg hexit, if_pos hsig] at h
    cases h
    exact .polled (Or.inr hsig) rfl (by simp)
  rw [if_neg hl, if_neg hexit, if_neg hsig] at h
  cases hlast : take_last c.files.list with
  | none =>
    have hone : au_fname_one c.files.list c.st.listsz.toNat = none := by
      rw [hc.listsz, Int.toNat_natCast]
      exact Option.map_eq_none_iff.1 hlast
    simp only [do_mvdown, hone] at h
    cases h
    exact .empty hlast rfl rfl
  | some x =>
    obtain ⟨r, o⟩ := x
    obtain ⟨fname, ops, hone, hops, hcases⟩ := do_mvdown_cases bs c.files c.st hc.listsz cur p.sys hlast
    rcases hd : do_mvdown bs c.files c.st cur p.sys with ⟨res, ops'⟩
    rw [hd] at h hops hcases
    simp only at h hops hcases
    subst hops
    rcases hcases with ⟨hpass, rfl⟩ | ⟨hpass, hlist, hres⟩
    · cases h
      exact .failed r o fname hlast hone hpass rfl rfl
    by_cases hgo : o ≠ [] ∧ p.sys.done = false
    · -- do_mvdown returns 1, and the statistics are the old ones
      have husage : cur_usage bw lcopy cur (after_cut cur p.sys o c.st) = true := hc.usage
      have hnext : (after_cut cur p.sys o c.st).next = none := rfl
      rw [hres, if_pos hgo] at h
      simp only [husage, hnext] at h
      cases h
      exact .skipped r o hlast hgo.1 hgo.2 hlist rfl rfl rfl
    · have hdone : o = [] ∨ p.sys.done = true := by
        rcases not_and_or.1 hgo with ho | hd
        · exact Or.inl (not_not.1 ho)
        · exact Or.inr (by simpa using hd)
      rw [hres, if_neg hgo] at h
      cases hstore : store_stbr bs cur (after_cut cur p.sys o c.st) with
      | none =>
        rw [hstore] at h
        cases h
        exact .stored ⟨by simpa using hexit, by simpa using hsig⟩ r o fname hlast hone hpass hdone hlist
          (Or.inr ⟨hstore, rfl, rfl⟩)
      | some st =>
        rw [hstore] at h
        cases h
        exact .stored ⟨by simpa using hexit, by simpa using hsig⟩ r o fname hlast hone hpass hdone hlist
          (Or.inl ⟨hstore, rfl⟩)

/-- a file that is not finished reports nothing -/
theorem reported_of_not_done {c : Child} {p : Poll} (h : p.sys.done = false) : reported c p = [] := by
  have hrep : p.sys.reports = false := by
    unfold MvSys.done at h
    unfold MvSys.reports
    rcases hopen : p.sys.openat with _ | e
    · rcases hio : p.sys.ioctl with _ | e
      · simp [hopen, hio] at h
      · simp
    · simp
  rw [reported, hrep, Bool.and_false]
  rfl

theorem left_of_step {c c' : Child} {p : Poll} (h : child_step bs bw lcopy cur c p = some c') : c.left = none := by
  by_contra hne
  rw [child_step, if_pos (Option.isSome_iff_ne_none.2 hne)] at h
  cases h

theorem looping_step (c : Child) (p : Poll) (c' : Child) (hc : c.left = none → Looping bw lcopy cur c)
    (h : child_step bs bw lcopy cur c p = some c') : c'.left = none → Looping bw lcopy cur c' := by
  intro hleft
  have hcl := hc (left_of_step bs bw lcopy cur h)
  rcases (child_step_cases bs bw lcopy cur hcl h).2 with ⟨-, -, hl⟩ | ⟨-, -, hl⟩ | ⟨-, -, -, -, -, -, -, hl⟩ |
    ⟨r, o, -, -, hdone, hlist, hst, hrep, -⟩ | ⟨-, -, -, -, -, -, -, -, -, ⟨-, hl⟩ | ⟨-, -, hl⟩⟩
  · exact absurd hleft hl
  · rw [hl] at hleft
    cases hleft
  · rw [hl] at hleft
    cases hleft
  · refine ⟨?_, ?_, ?_, ?_⟩
    · rw [hst, hlist]
      rfl
    · rw [hst]
      exact hcl.usage
    · rw [hst]
      rfl
    · rw [hrep, hcl.reports, reported_of_not_done hdone]
      rfl
  · rw [hl] at hleft
    cases hleft
  · rw [hl] at hleft
    cases hleft

/-! ## Reasons to stop -/

/-- the current branch with the statistics the kernel reported in this turn, else with those of the table -/
def current (c : Child) (p : Poll) : Option (Stbr Stfs) :=
  (c.st.stbr[cur]?).map fun stbr => if p.sys.reports then { stbr with stfs := p.sys.answer.upper.stfs } else stbr

/-- one of the two watermarks is reached: the lower one of the current branch, or the upper one of the target -/
def marked (c : Child) (p : Poll) : Bool :=
  (current cur c p).any (reached_lower bw lcopy) || (p.sys.reports && test_usage bw lcopy p.sys.answer.lower)

/-- the documented reasons to leave the loop -/
inductive Reason (c : Child) (p : Poll) (c' : Child) : Prop
  | exit (h : p.exit = true)
  | signal (h : p.signal = true)
  | error (h : c'.left = some .gone ∨ ∃ err < 0, c'.left = some (.ret err))
  | exhausted (h : c'.files.list = [])
  | watermark (h : marked bw lcopy cur c p = true)

/-- in this turn the loop is left for a documented reason, or it goes on with the names that are left -/
def Documented (c : Child) (p : Poll) : Prop :=
  ∀ c', child_step bs bw lcopy cur c p = some c' →
    Reason bw lcopy cur c p c' ∨ (c'.left = none ∧ ∃ r, take_last c.files.list = some (r, c'.files.list))

/-- the kernel has filled `mvdown` in for another branch: the assertion fails -/
def misnamed (c : Child) (p : Poll) : Prop :=
  p.sys.openat = none ∧ p.sys.answer.stfs_failed = false ∧
    ∀ stbr, c.st.stbr[cur]? = some stbr → stbr.brid ≠ p.sys.answer.upper.brid

/-- no file is finished in this turn while names are left and no watermark is reached -/
def NotCutShort (c : Child) (p : Poll) : Prop :=
  p.exit = false → p.signal = false → p.sys.finished = true → p.sys.ftr = true →
    ∀ r o, take_last c.files.list = some (r, o) → o = [] ∨ marked bw lcopy cur c p = true ∨ misnamed cur c p

theorem Looping.entry {c : Child} (hc : Looping bw lcopy cur c) : ∃ stbr, c.st.stbr[cur]? = some stbr := by
  have husage := hc.usage
  unfold cur_usage at husage
  cases hs : c.st.stbr[cur]? with
  | none =>
    rw [hs] at husage
    cases husage
  | some stbr => exact ⟨stbr, rfl⟩

/-- the end of do_mvdown fails only at its assertion -/
theorem store_stbr_none {st : MvState Stfs} {stbr : Stbr Stfs} (hs : st.stbr[cur]? = some stbr) :
    store_stbr bs cur st = none ↔ st.mvdown.stfs_failed = false ∧ stbr.brid ≠ st.mvdown.upper.brid := by
  unfold store_stbr
  by_cases hf : st.mvdown.stfs_failed = true
  · simp [hf]
  rw [if_neg hf, hs]
  dsimp only
  by_cases hb : stbr.brid ≠ st.mvdown.upper.brid
  · simp [hf, hb]
  rw [if_neg hb]
  refine ⟨?_, fun ⟨_, hne⟩ => absurd hne hb⟩
  intro h
  split_ifs at h
  split at h
  · cases h
  · cases h

/-- the assertion fails exactly if the kernel named another branch -/
theorem store_none_iff {c : Child} (hc : Looping bw lcopy cur c) (p : Poll) (o : Bytes) :
    store_stbr bs cur (after_cut cur p.sys o c.st) = none ↔ misnamed cur c p := by
  obtain ⟨stbr, hs⟩ := hc.entry
  have hm : (after_cut cur p.sys o c.st).mvdown = p.sys.filled (request cur c.st) := rfl
  have hmis : misnamed cur c p ↔
      p.sys.openat = none ∧ p.sys.answer.stfs_failed = false ∧ stbr.brid ≠ p.sys.answer.upper.brid := by
    simp only [misnamed, hs, Option.some.injEq, forall_eq']
  rw [store_stbr_none bs cur (show (after_cut cur p.sys o c.st).stbr[cur]? = some stbr from hs), hm, hmis]
  by_cases hopen : p.sys.openat = none
  · rw [MvSys.filled, if_pos hopen]
    exact ⟨fun h => ⟨hopen, h⟩, fun h => h.2⟩
  · -- a file that could not be opened leaves the branch that do_mvdown asked for
    have hreq : (request cur c.st).upper.brid = stbr.brid := by
      rw [request, hs]
      rfl
    rw [MvSys.filled, if_neg hopen, hreq]
    exact ⟨fun h => absurd rfl h.2, fun h => absurd h.1 hopen⟩

theorem documented_iff (c : Child) (p : Poll) (c' : Child) (hc : c.left = none → Looping bw lcopy cur c)
    (h : child_step bs bw lcopy cur c p = some c') :
    Documented bs bw lcopy cur c p ↔ NotCutShort bw lcopy cur c p := by
  have hcl := hc (left_of_step bs bw lcopy cur h)
  have hstored : ∀ {o : Bytes}, ((store_stbr bs cur (after_cut cur p.sys o c.st) = some c'.st ∧ c'.left = some (.ret 0)) ∨
      (store_stbr bs cur (after_cut cur p.sys o c.st) = none ∧ c'.st = c.st ∧ c'.left = some .gone)) →
      (c'.left = some .gone ↔ misnamed cur c p) := by
    intro o hst
    rw [← store_none_iff bs bw lcopy cur hcl p o]
    rcases hst with ⟨hs, hl⟩ | ⟨hs, -, hl⟩ <;> simp [hs, hl]
  constructor
  · intro hdoc hexit hsig hfin hftr r o hlast
    have hpass : ∀ fname, (p.sys.passes c.files.list c.files.failed fname && p.sys.ftr) = true ∧ p.sys.done = true := by
      intro fname
      obtain ⟨h1, h2⟩ := (finished_iff p.sys c.files.list c.files.failed fname).1 hfin
      exact ⟨by rw [h1, hftr]; rfl, h2⟩
    rcases (child_step_cases bs bw lcopy cur hcl h).2 with ⟨hp, -, -⟩ | ⟨hnone, -, -⟩ |
      ⟨r', o', fname, -, -, hfail, -, -⟩ |
      ⟨r', o', -, -, hdone, -, -, -, -⟩ | ⟨-, r', o', fname, hlast', -, -, -, hlist, hst⟩
    · simp [hexit, hsig] at hp
    · simp [hlast] at hnone
    · simp [(hpass fname).1] at hfail
    · simp [(hpass ⟨0, 0, 0, 0⟩).2] at hdone
    · obtain ⟨-, rfl⟩ := Prod.mk.inj (Option.some.inj (hlast'.symm.trans hlast))
      rcases hdoc c' h with hr | ⟨hnone, -⟩
      · rcases hr with he | hs | (hg | ⟨err, herr, hret⟩) | ho | hmark
        · simp [hexit] at he
        · simp [hsig] at hs
        · exact Or.inr (Or.inr ((hstored hst).1 hg))
        · rcases hst with ⟨-, hl⟩ | ⟨-, -, hl⟩
          · rw [hl, Option.some.injEq, Left.ret.injEq] at hret
            omega
          · simp [hl] at hret
        · exact Or.inl (hlist.symm.trans ho)
        · exact Or.inr (Or.inl hmark)
      · rcases hst with ⟨-, hl⟩ | ⟨-, -, hl⟩ <;> simp [hl] at hnone
  · intro hcond d hd
    obtain rfl := Option.some.inj (h.symm.trans hd)
    rcases (child_step_cases bs bw lcopy cur hcl h).2 with ⟨hp, -, -⟩ | ⟨-, -, hl⟩ | ⟨-, -, -, -, -, -, -, hl⟩ |
      ⟨r, o, hlast, -, -, hlist, -, -, hl⟩ | ⟨hpoll, r, o, fname, hlast, -, hpass, hdone, hlist, hst⟩
    · exact Or.inl (hp.elim .exit .signal)
    · exact Or.inl (.error (Or.inl hl))
    · exact Or.inl (.error (Or.inr ⟨-1, by decide, hl⟩))
    · exact Or.inr ⟨hl, r, hlist ▸ hlast⟩
    · left
      rcases hdone with ho | hdone
      · exact .exhausted (hlist.trans ho)
      · obtain ⟨h1, h2⟩ := Bool.and_eq_true_iff.1 hpass
        have hfin := (finished_iff p.sys c.files.list c.files.failed fname).2 ⟨h1, hdone⟩
        rcases hcond hpoll.1 hpoll.2 hfin h2 r o hlast with ho | hmark | hmis
        · exact .exhausted (hlist.trans ho)
        · exact .watermark hmark
        · exact .error (Or.inl ((hstored hst).2 hmis))

/-- **The child stops early exactly when a file is finished too soon.** In every run of the loop: each turn leaves it
for a documented reason or goes on with the next name, if and only if no turn finishes a file (moved, vanished, refused
with EROFS) while names are left, no watermark is reached and the kernel named the current branch. -/
theorem stops_documented_iff (s : Start bw lcopy cur) (ps : List Poll) (c : Child)
    (h : exec (child_step bs bw lcopy cur) s.child ps = some c) :
    Along (child_step bs bw lcopy cur) (Documented bs bw lcopy cur) s.child ps ↔
      Along (child_step bs bw lcopy cur) (NotCutShort bw lcopy cur) s.child ps := by
  have hstart : s.child.left = none → Looping bw lcopy cur s.child := fun _ => ⟨rfl, s.usage, rfl, rfl⟩
  exact along_congr _ (fun _ => True) (fun c => c.left = none → Looping bw lcopy cur c) _ _
    (looping_step bs bw lcopy cur) (fun c p c' _ => documented_iff bs bw lcopy cur c p c') (fun _ _ => trivial) hstart h

end Loop

/-- upper watermark 75%, lower watermark 50%, on two branches -/
def twoMarks : Aufhsm ℚ :=
  ⟨[], 0, [⟨0, (0, 0), (1 / 4, 1 / 2), (1, 1)⟩, ⟨1, (0, 0), (1 / 4, 1 / 2), (1, 1)⟩]⟩

def linear_stbr : Bsearch (compare : ℤ → ℤ → Ordering) (Stbr.brid (S := Stfs)) := .linear _ _

def linear_wmark : Bsearch bridOrd (Wmark.brid (F := ℚ)) := .linear _ _

/-- branch 0 is 90% full and has two names on its list; nothing was moved before -/
def fullBranch : Start linear_wmark twoMarks 0 where
  files := ⟨list_file [one_letter 97 (by decide), one_letter 98 (by decide)], [], []⟩
  mvdown := ⟨false, false, ⟨0, ⟨0, 0, 0, 0⟩⟩, ⟨0, ⟨0, 0, 0, 0⟩⟩⟩
  stbr := [⟨0, ⟨100, 10, 100, 90⟩⟩, ⟨1, ⟨100, 90, 100, 90⟩⟩]
  list_ne := by decide
  usage := by decide +kernel

/-- a turn without message and signal; if the file is moved, branch 0 is 80% full after it and branch 1 20% -/
def tried (openat ioctl : Option Errno) : Poll :=
  ⟨false, false, ⟨openat, ioctl, ⟨false, false, ⟨0, ⟨100, 20, 100, 90⟩⟩, ⟨1, ⟨100, 80, 100, 90⟩⟩⟩, true, true, 1,
    .full, true, true⟩⟩

/-- the list after the first name was taken -/
def oneName : Bytes := list_file [one_letter 97 (by decide)]

theorem stops_documented_last : ∃ c,
    exec (child_step linear_stbr linear_wmark twoMarks 0) fullBranch.child [tried none (some .EINVAL), tried none none] =
      some c ∧
    Along (child_step linear_stbr linear_wmark twoMarks 0) (Documented linear_stbr linear_wmark twoMarks 0)
      fullBranch.child [tried none (some .EINVAL), tried none none] := by
  obtain ⟨c, hc⟩ := Option.isSome_iff_exists.1 (show (exec (child_step linear_stbr linear_wmark twoMarks 0)
    fullBranch.child [tried none (some .EINVAL), tried none none]).isSome = true by decide +kernel)
  refine ⟨c, hc, (stops_documented_iff linear_stbr linear_wmark twoMarks 0 fullBranch _ c hc).2 ⟨?_, ?_⟩⟩
  · intro _ _ hfin
    simp [tried, MvSys.finished] at hfin
  · intro t ht
    refine ⟨?_, fun _ _ => trivial⟩
    intro _ _ _ _ r o hlast
    left
    have hlist : t.files.list = oneName := by
      have hstep : (child_step linear_stbr linear_wmark twoMarks 0 fullBranch.child (tried none (some .EINVAL))).map
          (fun c => c.files.list) = some oneName := by decide +kernel
      rw [ht] at hstep
      exact Option.some.inj hstep
    have hempty : (take_last oneName).map Prod.snd = some [] := by decide +kernel
    rw [← hlist, hlast] at hempty
    exact Option.some.inj hempty

/-- the first of two names is moved, no watermark is reached, and the child leaves the loop -/
theorem stops_after_one_name :
    ((exec (child_step linear_stbr linear_wmark twoMarks 0) fullBranch.child [tried none none]).map
      fun c => (c.left, c.files.list)) = some (some (.ret 0), oneName) ∧
    ¬ Along (child_step linear_stbr linear_wmark twoMarks 0) (Documented linear_stbr linear_wmark twoMarks 0)
      fullBranch.child [tried none none] := by
  have hrun : ((exec (child_step linear_stbr linear_wmark twoMarks 0) fullBranch.child [tried none none]).map
      fun c => (c.left, c.files.list)) = some (some (.ret 0), oneName) := by decide +kernel
  refine ⟨hrun, ?_⟩
  intro ⟨hdoc, _⟩
  obtain ⟨c, hc, hres⟩ := Option.map_eq_some_iff.1 hrun
  obtain ⟨d, hd, hc⟩ := (exec_cons _).1 hc
  obtain rfl := Option.some.inj hc
  obtain ⟨hleft, hlist⟩ := Prod.mk.inj hres
  rcases hdoc d hd with hr | ⟨hnone, -⟩
  · rcases hr with he | hs | (hg | ⟨err, herr, hret⟩) | ho | hmark
    · exact absurd he (by decide)
    · exact absurd hs (by decide)
    · rw [hleft] at hg
      cases hg
    · rw [hleft, Option.some.injEq, Left.ret.injEq] at hret
      omega
    · rw [hlist] at ho
      exact absurd ho (by decide)
    · exact absurd hmark (by decide +kernel)
  · rw [hleft] at hnone
    cases hnone

end AufsUtil.Fhsm
