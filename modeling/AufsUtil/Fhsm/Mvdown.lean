/-
Moving files down (`fhsm/mvdown.c`), and what becomes of the file names.

do_mvdown1 tries to move the file of the last record and maps the result to three answers: cut the record off the list,
put it on the failed-list and cut it off, or stop. do_mvdown cuts, and stores the statistics that the kernel reported.
A turn of the daemon is au_list followed by any number of these steps; it may die after every change to a file. `turn`
gives all changes of a whole turn in their order, a run cuts every turn where the process dies (`run`).

- `do_mvdown_spec`: the changes one step can make.
- `no_name_lost`: over any number of turns, with any outcome of any system call but partial writes, a record that is in
  one of the files stays in one of them until an attempt with an excused outcome consumes it.

What the model keeps of C:
- the statistics of a branch and the `next` pointer are stored after the cut; `mvdown` keeps its old contents when the
  file cannot be opened;
- the link count is read even if fstat(2) failed, its value is an input then;
- au_fname_one ends the process at an empty record.
-/
import Mathlib.Tactic
import AufsUtil.Lib.SortSearch
import AufsUtil.Fhsm.List

namespace AufsUtil.Fhsm

open AufsUtil.CStr AufsUtil.SortSearch

variable {S : Type}

/-! ## One step -/

inductive Errno where
  | ENOENT
  | EROFS
  | EBUSY
  | EINVAL
  | ENOSPC
  | other (n : ℕ)
deriving DecidableEq, Repr

/-- struct aufs_stbr, S being struct aufs_stfs -/
structure Stbr (S : Type) where
  brid : ℤ
  stfs : S
deriving DecidableEq, Repr

/-- struct aufs_mvdown: the flags the kernel answers with, and the two branches -/
structure Mvdown (S : Type) where
  bottom : Bool
  stfs_failed : Bool
  upper : Stbr S
  lower : Stbr S
deriving DecidableEq, Repr

/-- the system calls of one step -/
structure MvSys (S : Type) where
  openat : Option Errno
  ioctl : Option Errno
  answer : Mvdown S
  close : Bool
  fstat : Bool
  nlink : ℕ
  write : WriteRes
  undo : Bool
  ftr : Bool

/-- how the attempt went -/
def MvSys.attempt (sys : MvSys S) : Attempt :=
  match sys.openat with
  | some .ENOENT => .enoent
  | some _ => .other
  | none =>
    match sys.ioctl with
    | none => .moved
    | some .EROFS => .erofs
    | some .EINVAL => .einval
    | some .EBUSY => .busy (if sys.fstat then some sys.nlink else none)
    | some _ => .other

def close_err (sys : MvSys S) : ℤ := if sys.close then 0 else -1

/-- err, done, mvdown, and the changes to the files -/
def do_mvdown1 (o failed : Bytes) (fname : Fname) (sys : MvSys S) (mvdown : Mvdown S) :
    ℤ × Bool × Mvdown S × List FileOp :=
  match sys.openat with
  | some .ENOENT => (0, true, mvdown, [])
  | some _ => (-1, true, mvdown, [])
  | none =>
    match sys.ioctl with
    | none => (close_err sys, true, sys.answer, [])
    | some .EROFS => (close_err sys, true, sys.answer, [])
    | some .EBUSY =>
      let err : ℤ := if sys.fstat then 0 else -1
      let r := if sys.nlink = 1 then au_fname_failed o fname failed sys.write sys.undo else (err, [])
      (if r.1 = 0 then close_err sys else r.1, false, sys.answer, r.2)
    | some .EINVAL => (close_err sys, false, sys.answer, [])
    | some _ => (-1, false, sys.answer, [])

/-- the globals of mvdown.c, comm->stbr and *next -/
structure MvState (S : Type) where
  listsz : ℤ
  mvdown : Mvdown S
  stbr : List (Stbr S)
  next : Option ℕ

def au_stbr_bsearch (bs : Bsearch (compare : ℤ → ℤ → Ordering) (Stbr.brid (S := S))) (brid : ℤ)
    (stbr : List (Stbr S)) : Option ℕ := bs.search brid stbr

/-- the end of do_mvdown: the statistics of `cur`, and the lower branch; `none` is a failed assertion -/
def store_stbr (bs : Bsearch (compare : ℤ → ℤ → Ordering) (Stbr.brid (S := S))) (cur : ℕ) (st : MvState S) :
    Option (MvState S) :=
  if st.mvdown.stfs_failed then some st
  else
    match st.stbr[cur]? with
    | none => none
    | some c =>
      if c.brid ≠ st.mvdown.upper.brid then none
      else
        let stbr := st.stbr.set cur { c with stfs := st.mvdown.upper.stfs }
        if st.mvdown.bottom then some { st with stbr := stbr }
        else
          match au_stbr_bsearch bs st.mvdown.lower.brid stbr with
          | none => some { st with stbr := stbr }
          | some k => some { st with stbr := stbr.set k st.mvdown.lower, next := some k }

/-- do_mvdown once do_mvdown1 has returned err: cut the record r, of len bytes, off the list -/
def mvdown_cut (bs : Bsearch (compare : ℤ → ℤ → Ordering) (Stbr.brid (S := S))) (cur : ℕ) (sys : MvSys S) (r : Bytes)
    (len : ℤ) (st : MvState S) (err : ℤ) (done : Bool) (ops : List FileOp) : Option (ℤ × MvState S) × List FileOp :=
  if err ≠ 0 then (some (err, st), ops)
  else if !sys.ftr then (some (-1, st), ops)
  else
    let st := { st with next := none, listsz := st.listsz - len }
    let ops := ops ++ [.list_truncate st.listsz.toNat (some (r, sys.attempt))]
    if st.listsz ≠ 0 ∧ done = false then (some (1, st), ops)
    else ((store_stbr bs cur st).map fun st => (0, st), ops)

/-- err and the globals, `none` if the process is gone; and the changes to the files -/
def do_mvdown (bs : Bsearch (compare : ℤ → ℤ → Ordering) (Stbr.brid (S := S))) (fs : Files) (st : MvState S) (cur : ℕ)
    (sys : MvSys S) : Option (ℤ × MvState S) × List FileOp :=
  match au_fname_one fs.list st.listsz.toNat with
  | none => (none, [])
  | some fname =>
    let brid := ((st.stbr[cur]?).map Stbr.brid).getD 0
    let d := do_mvdown1 fs.list fs.failed fname sys
      ⟨false, false, ⟨brid, st.mvdown.upper.stfs⟩, st.mvdown.lower⟩
    mvdown_cut bs cur sys (cstr fs.list fname.atime) fname.len { st with mvdown := d.2.2.1 } d.1 d.2.1 d.2.2.2

/-! ## Turns -/

/-- the inputs of one turn: au_list, fstat(2) and mmap(2) of the list, and the steps -/
structure Turn (S : Type) where
  list : ListSys
  fstat : Bool
  mmap : Bool
  mvdown : Mvdown S
  stbr : List (Stbr S)
  cur : ℕ
  steps : List (MvSys S)

section Runs

variable (bs : Bsearch (compare : ℤ → ℤ → Ordering) (Stbr.brid (S := S)))

/-- any number of do_mvdown steps, whatever they return, until the process is gone -/
def mvdown_steps (cur : ℕ) : Files → MvState S → List (MvSys S) → List FileOp
  | _, _, [] => []
  | fs, st, sys :: rest =>
    match do_mvdown bs fs st cur sys with
    | (none, ops) => ops
    | (some (_, st), ops) => ops ++ mvdown_steps cur (apply_all fs ops) st rest

/-- the changes of a whole turn -/
def turn (fs : Files) (t : Turn S) : List FileOp :=
  match au_list fs t.list with
  | (none, ops) => ops
  | (some err, ops) =>
    let fs := apply_all fs ops
    if err ≠ 0 ∨ !t.fstat ∨ fs.list = [] ∨ !t.mmap then ops
    else ops ++ mvdown_steps bs t.cur fs ⟨fs.list.length, t.mvdown, t.stbr, none⟩ t.steps

/-- the changes of a run: every turn with the number of changes after which the process dies, at the latest -/
def run : Files → List (Turn S × ℕ) → List FileOp
  | _, [] => []
  | fs, (t, k) :: rest => (turn bs fs t).take k ++ run (apply_all fs ((turn bs fs t).take k)) rest

end Runs

/-! ## The files as lists of records -/

/-- the list holds the records ls, empty ones among them; the failed-list the records ts, none empty -/
structure HoldsRecords (fs : Files) (ls ts : List Bytes) : Prop where
  list : fs.list = encode ls
  list_ok : ∀ r ∈ ls, (0 : UInt8) ∉ r
  failed : fs.failed = encode ts
  failed_ok : ∀ r ∈ ts, (0 : UInt8) ∉ r ∧ r ≠ []

/-- the records of both files -/
def Files.names (fs : Files) : List Bytes := records fs.list ++ records fs.failed

section Ops

variable {fs : Files} {ls ts : List Bytes}

theorem HoldsRecords.names (h : HoldsRecords fs ls ts) : fs.names = ls ++ ts := by
  rw [Files.names, h.list, h.failed, records_encode ls h.list_ok, records_encode ts fun r hr => (h.failed_ok r hr).1]

theorem HoldsRecords.failed_append (h : HoldsRecords fs ls ts) {r : Bytes} (hr : (0 : UInt8) ∉ r) (hne : r ≠ []) :
    HoldsRecords ((FileOp.failed_append (r ++ [0])).apply fs) ls (ts ++ [r]) := by
  refine ⟨h.list, h.list_ok, ?_, ?_⟩
  · simp [FileOp.apply, h.failed]
  · intro t ht
    rcases List.mem_append.1 ht with ht | ht
    · exact h.failed_ok t ht
    · rw [List.mem_singleton.1 ht]
      exact ⟨hr, hne⟩

theorem ftruncate_encode (ls : List Bytes) (r : Bytes) : ftruncate (encode (ls ++ [r])) (encode ls).length = encode ls := by
  have hle : (encode ls).length - (encode (ls ++ [r])).length = 0 := by
    rw [length_encode_concat]
    omega
  rw [ftruncate, hle, encode_append, List.take_left]
  simp

theorem HoldsRecords.list_truncate {r : Bytes} (h : HoldsRecords fs (ls ++ [r]) ts) (x : Option (Bytes × Attempt)) :
    HoldsRecords ((FileOp.list_truncate (encode ls).length x).apply fs) ls ts := by
  have hlist : ftruncate fs.list (encode ls).length = encode ls := by rw [h.list, ftruncate_encode]
  have hok : ∀ t ∈ ls, (0 : UInt8) ∉ t := fun t ht => h.list_ok t (List.mem_append_left _ ht)
  cases x with
  | none => exact ⟨hlist, hok, h.failed, h.failed_ok⟩
  | some x => exact ⟨hlist, hok, h.failed, h.failed_ok⟩

/-- the NUL in front makes an empty record -/
theorem HoldsRecords.list_append (h : HoldsRecords fs ls ts) :
    HoldsRecords ((FileOp.list_append (0 :: encode ts.reverse)).apply fs) (ls ++ [] :: ts.reverse) ts := by
  refine ⟨?_, ?_, h.failed, h.failed_ok⟩
  · simp [FileOp.apply, h.list]
  · intro t ht
    rcases List.mem_append.1 ht with ht | ht
    · exact h.list_ok t ht
    · rcases List.mem_cons.1 ht with rfl | ht
      · simp
      · exact (h.failed_ok t (List.mem_reverse.1 ht)).1

theorem HoldsRecords.failed_truncate (h : HoldsRecords fs ls ts) : HoldsRecords ((FileOp.failed_truncate 0).apply fs) ls [] :=
  ⟨h.list, h.list_ok, by simp [FileOp.apply, ftruncate], fun r hr => by simp at hr⟩

theorem HoldsRecords.list_write (h : HoldsRecords fs ls ts) (l : Listing) :
    HoldsRecords ((FileOp.list_write (encode l.recs)).apply fs) l.recs ts :=
  ⟨rfl, l.nul_free, h.failed, h.failed_ok⟩

end Ops

/-! ## What a step can do -/

/-- do_mvdown1 leaves the files alone, and only an excused attempt lets the caller go on; or it puts the name on the
failed-list -/
theorem do_mvdown1_spec (ls : List Bytes) (r failed : Bytes) (hr : (0 : UInt8) ∉ r)
    (hlen : (encode (ls ++ [r])).length < 2 ^ 31) (f : Fname) (hf : f.atime = (encode ls).length) (sys : MvSys S)
    (hw : sys.write.Whole) (m : Mvdown S) :
    ((do_mvdown1 (encode (ls ++ [r])) failed f sys m).2.2.2 = [] ∧
        ((do_mvdown1 (encode (ls ++ [r])) failed f sys m).1 = 0 → sys.attempt.excused = true)) ∨
      (do_mvdown1 (encode (ls ++ [r])) failed f sys m).2.2.2 = [.failed_append (r ++ [0])] := by
  unfold do_mvdown1 MvSys.attempt
  rcases hopen : sys.openat with _ | e
  · rcases hio : sys.ioctl with _ | e
    · exact Or.inl ⟨rfl, fun _ => rfl⟩
    · cases e with
      | EROFS => exact Or.inl ⟨rfl, fun _ => rfl⟩
      | EINVAL => exact Or.inl ⟨rfl, fun _ => rfl⟩
      | EBUSY =>
        by_cases hn : sys.nlink = 1
        · simp only [hn, if_true]
          rcases au_fname_failed_spec ls r failed hr f hlen hf sys.write hw sys.undo with h | h
          · exact Or.inr (by rw [h])
          · exact Or.inl ⟨by rw [h], fun h0 => by rw [h] at h0; simp at h0⟩
        · simp only [hn, if_false]
          refine Or.inl ⟨trivial, ?_⟩
          intro h0
          cases hst : sys.fstat with
          | true => simpa [Attempt.excused] using hn
          | false => simp [hst] at h0
      | ENOENT => exact Or.inl ⟨rfl, fun h0 => by simp at h0⟩
      | ENOSPC => exact Or.inl ⟨rfl, fun h0 => by simp at h0⟩
      | other n => exact Or.inl ⟨rfl, fun h0 => by simp at h0⟩
  · cases e with
    | ENOENT => exact Or.inl ⟨rfl, fun _ => rfl⟩
    | EROFS => exact Or.inl ⟨rfl, fun h0 => by simp at h0⟩
    | EINVAL => exact Or.inl ⟨rfl, fun h0 => by simp at h0⟩
    | EBUSY => exact Or.inl ⟨rfl, fun h0 => by simp at h0⟩
    | ENOSPC => exact Or.inl ⟨rfl, fun h0 => by simp at h0⟩
    | other n => exact Or.inl ⟨rfl, fun h0 => by simp at h0⟩

/-- the changes of one step, the last record being r: none; the failed-list gets it; an excused attempt cuts it off;
the failed-list gets it and it is cut off -/
def StepOps (ls : List Bytes) (r : Bytes) (ops : List FileOp) : Prop :=
  ops = [] ∨ ops = [.failed_append (r ++ [0])] ∨
    (∃ a : Attempt, a.excused = true ∧ ops = [.list_truncate (encode ls).length (some (r, a))]) ∨
    ∃ a, ops = [.failed_append (r ++ [0]), .list_truncate (encode ls).length (some (r, a))]

/-- the cut of do_mvdown falls behind the other records -/
theorem cut_len (ls : List Bytes) (r : Bytes) (f : Fname) (hf : f.len = r.length + 1) :
    (((encode (ls ++ [r])).length : ℤ) - f.len) = (encode ls).length := by
  rw [hf, length_encode_concat]
  push_cast
  omega

theorem store_stbr_listsz (bs : Bsearch (compare : ℤ → ℤ → Ordering) (Stbr.brid (S := S))) (cur : ℕ)
    (st st' : MvState S) (h : store_stbr bs cur st = some st') : st'.listsz = st.listsz := by
  unfold store_stbr at h
  by_cases hf : st.mvdown.stfs_failed = true
  · rw [if_pos hf] at h
    cases h
    rfl
  rw [if_neg hf] at h
  cases hc : st.stbr[cur]? with
  | none =>
    rw [hc] at h
    cases h
  | some c =>
    rw [hc] at h
    simp only at h
    split_ifs at h
    · cases h
      rfl
    · split at h <;> cases h <;> rfl

theorem mvdown_cut_cases (bs : Bsearch (compare : ℤ → ℤ → Ordering) (Stbr.brid (S := S))) (cur : ℕ) (sys : MvSys S)
    (r : Bytes) (len : ℤ) (st : MvState S) (err : ℤ) (done : Bool) (ops : List FileOp) :
    ((mvdown_cut bs cur sys r len st err done ops).2 = ops ∧
        ∀ e st', (mvdown_cut bs cur sys r len st err done ops).1 = some (e, st') → st'.listsz = st.listsz) ∨
      (err = 0 ∧ (mvdown_cut bs cur sys r len st err done ops).2 =
          ops ++ [.list_truncate (st.listsz - len).toNat (some (r, sys.attempt))] ∧
        ∀ e st', (mvdown_cut bs cur sys r len st err done ops).1 = some (e, st') →
          st'.listsz = st.listsz - len) := by
  unfold mvdown_cut
  by_cases herr : err ≠ 0
  · rw [if_pos herr]
    exact Or.inl ⟨rfl, fun e st' h => by cases h; rfl⟩
  by_cases hftr : (!sys.ftr) = true
  · rw [if_neg herr, if_pos hftr]
    exact Or.inl ⟨rfl, fun e st' h => by cases h; rfl⟩
  rw [if_neg herr, if_neg hftr]
  refine Or.inr ⟨not_not.1 herr, ?_⟩
  simp only
  split_ifs
  · exact ⟨rfl, fun e st' h => by cases h; rfl⟩
  · refine ⟨rfl, ?_⟩
    intro e st' h
    obtain ⟨v, hv, hve⟩ := Option.map_eq_some_iff.1 h
    cases hve
    exact store_stbr_listsz bs cur _ _ hv

theorem do_mvdown_spec (bs : Bsearch (compare : ℤ → ℤ → Ordering) (Stbr.brid (S := S))) (fs : Files)
    (ls ts : List Bytes) (h : HoldsRecords fs ls ts) (hlen : fs.list.length < 2 ^ 31) (st : MvState S)
    (hst : st.listsz = fs.list.length) (cur : ℕ) (sys : MvSys S) (hw : sys.write.Whole) :
    ((do_mvdown bs fs st cur sys).2 = [] ∨
        ∃ ls' r, ls = ls' ++ [r] ∧ r ≠ [] ∧ StepOps ls' r (do_mvdown bs fs st cur sys).2) ∧
      ∀ err st', (do_mvdown bs fs st cur sys).1 = some (err, st') →
        st'.listsz = (apply_all fs (do_mvdown bs fs st cur sys).2).list.length := by
  have hsz : st.listsz.toNat = fs.list.length := by omega
  unfold do_mvdown
  rw [hsz]
  cases hone : au_fname_one fs.list fs.list.length with
  | none => exact ⟨Or.inl rfl, fun err st' hc => by cases hc⟩
  | some f =>
    rcases List.eq_nil_or_concat ls with rfl | ⟨ls', r, rfl⟩
    · simp [h.list, au_fname_one] at hone
    rw [List.concat_eq_append] at h ⊢
    have hr : (0 : UInt8) ∉ r := h.list_ok r (by simp)
    rw [h.list] at hone hlen
    obtain ⟨hat, hfl, hcstr, hne⟩ := au_fname_one_spec ls' r hr f hlen hone
    have hcut : st.listsz - f.len = (encode ls').length := by
      rw [hst, h.list]
      exact cut_len ls' r f hfl
    simp only [h.list, hcstr]
    set m : Mvdown S := ⟨false, false, ⟨((st.stbr[cur]?).map Stbr.brid).getD 0, st.mvdown.upper.stfs⟩, st.mvdown.lower⟩
    have hspec := do_mvdown1_spec ls' r fs.failed hr hlen f hat sys hw m
    set d := do_mvdown1 (encode (ls' ++ [r])) fs.failed f sys m
    have hfailed : HoldsRecords (apply_all fs [.failed_append (r ++ [0])]) (ls' ++ [r]) (ts ++ [r]) :=
      h.failed_append hr hne
    rcases mvdown_cut_cases bs cur sys r f.len { st with mvdown := d.2.2.1 } d.1 d.2.1 d.2.2.2 with
      ⟨hops, hout⟩ | ⟨herr, hops, hout⟩
    · -- nothing was cut
      rw [hops]
      rcases hspec with ⟨hnil, -⟩ | happ
      · refine ⟨Or.inl hnil, ?_⟩
        intro err st' he
        rw [hout err st' he, hnil]
        exact hst
      · refine ⟨Or.inr ⟨ls', r, rfl, hne, Or.inr (Or.inl happ)⟩, ?_⟩
        intro err st' he
        rw [hout err st' he, happ, hfailed.list, ← h.list]
        exact hst
    · rw [hops]
      have hnat : (st.listsz - f.len).toNat = (encode ls').length := by omega
      simp only [hnat]
      rcases hspec with ⟨hnil, hexc⟩ | happ
      · rw [hnil] at hout ⊢
        rw [List.nil_append]
        refine ⟨Or.inr ⟨ls', r, rfl, hne, Or.inr (Or.inr (Or.inl ⟨_, hexc herr, rfl⟩))⟩, ?_⟩
        intro err st' he
        have htr : HoldsRecords (apply_all fs [.list_truncate (encode ls').length (some (r, sys.attempt))]) ls' ts :=
          h.list_truncate (some (r, sys.attempt))
        rw [hout err st' he, htr.list]
        exact hcut
      · rw [happ] at hout ⊢
        refine ⟨Or.inr ⟨ls', r, rfl, hne, Or.inr (Or.inr (Or.inr ⟨_, rfl⟩))⟩, ?_⟩
        intro err st' he
        have htr : HoldsRecords (apply_all fs ([.failed_append (r ++ [0])] ++
            [.list_truncate (encode ls').length (some (r, sys.attempt))])) ls' (ts ++ [r]) :=
          hfailed.list_truncate (some (r, sys.attempt))
        rw [hout err st' he, htr.list]
        exact hcut

/-! ## No change loses a record -/

def Wf (fs : Files) : Prop := ∃ ls ts, HoldsRecords fs ls ts

/-- a record of s is a record of u, unless an excused attempt has consumed it in between -/
def Held (r : Bytes) (s u : Files) : Prop :=
  s.gone.count r ≤ u.gone.count r ∧ (r ∈ s.names → r ∈ u.names ∨ s.gone.count r < u.gone.count r)

theorem held_refl (r : Bytes) (s : Files) : Held r s s := ⟨le_rfl, Or.inl⟩

theorem held_trans {r : Bytes} {s t u : Files} (h : Held r s t) (h' : Held r t u) : Held r s u := by
  refine ⟨h.1.trans h'.1, ?_⟩
  intro hr
  rcases h.2 hr with ht | hlt
  · rcases h'.2 ht with hu | hlt
    · exact Or.inl hu
    · exact Or.inr (lt_of_le_of_lt h.1 hlt)
  · exact Or.inr (lt_of_lt_of_le hlt h'.1)

/-- every change holds every record -/
def Safe : Files → List FileOp → Prop
  | _, [] => True
  | s, op :: ops => Wf (op.apply s) ∧ (∀ r, Held r s (op.apply s)) ∧ Safe (op.apply s) ops

/-- the copies of r in both files, and those that excused attempts have consumed -/
def total (r : Bytes) (s : Files) : ℕ := s.names.count r + s.gone.count r

/-- there are never fewer than n -/
def Kept (r : Bytes) (n : ℕ) : Files → List FileOp → Prop
  | s, [] => n ≤ total r s
  | s, op :: ops => n ≤ total r s ∧ Kept r n (op.apply s) ops

/-- the changes ops, begun in s, lose nothing: neither between two changes, nor a copy of what was there in s -/
structure Guarded (s : Files) (ops : List FileOp) : Prop where
  safe : Safe s ops
  kept : ∀ r, Kept r (total r s) s ops

theorem apply_all_append (s : Files) (a b : List FileOp) : apply_all s (a ++ b) = apply_all (apply_all s a) b := by
  simp [apply_all, List.foldl_append]

theorem safe_append {s : Files} {a b : List FileOp} (ha : Safe s a) (hb : Safe (apply_all s a) b) :
    Safe s (a ++ b) := by
  induction a generalizing s with
  | nil => exact hb
  | cons op a ih =>
    obtain ⟨hwf, hheld, hrest⟩ := ha
    exact ⟨hwf, hheld, ih hrest hb⟩

theorem safe_take {s : Files} {ops : List FileOp} (h : Safe s ops) (k : ℕ) : Safe s (ops.take k) := by
  induction ops generalizing s k with
  | nil => simp [Safe]
  | cons op ops ih =>
    cases k with
    | zero => trivial
    | succ k =>
      obtain ⟨hwf, hheld, hrest⟩ := h
      exact ⟨hwf, hheld, ih hrest k⟩

theorem safe_wf {s : Files} {ops : List FileOp} (hs : Wf s) (h : Safe s ops) : Wf (apply_all s ops) := by
  induction ops generalizing s with
  | nil => exact hs
  | cons op ops ih => exact ih h.1 h.2.2

theorem safe_held {s : Files} {ops : List FileOp} (h : Safe s ops) (r : Bytes) : Held r s (apply_all s ops) := by
  induction ops generalizing s with
  | nil => exact held_refl r s
  | cons op ops ih => exact held_trans (h.2.1 r) (ih h.2.2)

theorem safe_drop {s : Files} {a b : List FileOp} (h : Safe s (a ++ b)) : Safe (apply_all s a) b := by
  induction a generalizing s with
  | nil => exact h
  | cons op a ih => exact ih h.2.2

theorem kept_end {r : Bytes} {n : ℕ} {s : Files} {ops : List FileOp} (h : Kept r n s ops) :
    n ≤ total r (apply_all s ops) := by
  induction ops generalizing s with
  | nil => exact h
  | cons op ops ih => exact ih h.2

theorem kept_mono {r : Bytes} {n m : ℕ} {s : Files} {ops : List FileOp} (hnm : n ≤ m) (h : Kept r m s ops) :
    Kept r n s ops := by
  induction ops generalizing s with
  | nil => exact hnm.trans h
  | cons op ops ih => exact ⟨hnm.trans h.1, ih h.2⟩

theorem kept_append {r : Bytes} {n : ℕ} {s : Files} {a b : List FileOp} (ha : Kept r n s a)
    (hb : Kept r n (apply_all s a) b) : Kept r n s (a ++ b) := by
  induction a generalizing s with
  | nil => exact hb
  | cons op a ih => exact ⟨ha.1, ih ha.2 hb⟩

theorem kept_take {r : Bytes} {n : ℕ} {s : Files} {ops : List FileOp} (h : Kept r n s ops) (k : ℕ) :
    Kept r n s (ops.take k) := by
  induction ops generalizing s k with
  | nil => simpa using h
  | cons op ops ih =>
    cases k with
    | zero => exact h.1
    | succ k => exact ⟨h.1, ih h.2 k⟩

theorem guarded_nil (s : Files) : Guarded s [] := ⟨trivial, fun _ => le_rfl⟩

theorem Guarded.append {s : Files} {a b : List FileOp} (ha : Guarded s a) (hb : Guarded (apply_all s a) b) :
    Guarded s (a ++ b) :=
  ⟨safe_append ha.safe hb.safe, fun r => kept_append (ha.kept r) (kept_mono (kept_end (ha.kept r)) (hb.kept r))⟩

theorem Guarded.take {s : Files} {ops : List FileOp} (h : Guarded s ops) (k : ℕ) : Guarded s (ops.take k) :=
  ⟨safe_take h.safe k, fun r => kept_take (h.kept r) k⟩

/-! ## The changes of the program -/

section Actions

variable {fs : Files} {ls ts : List Bytes}

theorem HoldsRecords.held {fs' : Files} {ls' ts' : List Bytes} (h : HoldsRecords fs ls ts)
    (h' : HoldsRecords fs' ls' ts') (hg : fs'.gone = fs.gone) (hsub : ∀ r ∈ ls ++ ts, r ∈ ls' ++ ts') (r : Bytes) :
    Held r fs fs' := by
  rw [Held, hg, h.names, h'.names]
  exact ⟨le_rfl, fun hr => Or.inl (hsub r hr)⟩

theorem HoldsRecords.total (h : HoldsRecords fs ls ts) (r : Bytes) :
    Fhsm.total r fs = ls.count r + ts.count r + fs.gone.count r := by
  rw [Fhsm.total, h.names, List.count_append]

/-- the steps of do_mvdown: the failed-list gets the name before the list loses it -/
theorem step_guarded {r : Bytes} {ops : List FileOp} (h : HoldsRecords fs (ls ++ [r]) ts) (hne : r ≠ [])
    (hops : StepOps ls r ops) : Guarded fs ops := by
  have hr : (0 : UInt8) ∉ r := h.list_ok r (by simp)
  have happ := h.failed_append hr hne
  have happ_held := h.held happ rfl fun x hx => by simpa [or_assoc] using Or.inl hx
  rcases hops with rfl | rfl | ⟨a, ha, rfl⟩ | ⟨a, rfl⟩
  · exact guarded_nil fs
  · refine ⟨⟨⟨_, _, happ⟩, happ_held, trivial⟩, fun x => ⟨le_rfl, ?_⟩⟩
    rw [Kept, h.total, happ.total]
    simp only [FileOp.apply, List.count_append]
    omega
  · have htr := h.list_truncate (some (r, a))
    have hgone : ((FileOp.list_truncate (encode ls).length (some (r, a))).apply fs).gone = r :: fs.gone := by
      simp [FileOp.apply, ha]
    refine ⟨⟨⟨_, _, htr⟩, ?_, trivial⟩, fun x => ⟨le_rfl, ?_⟩⟩
    · intro x
      rw [Held, hgone, h.names, htr.names]
      refine ⟨List.count_le_count_cons, fun hx => ?_⟩
      by_cases hxr : x = r
      · subst hxr
        exact Or.inr (by simp)
      · left
        simpa [hxr] using hx
    · rw [Kept, h.total, htr.total, hgone, List.count_append, List.count_cons, List.count_cons]
      simp
      omega
  · have htr := happ.list_truncate (some (r, a))
    have hgone : ∀ x, fs.gone.count x ≤
        ((FileOp.list_truncate (encode ls).length (some (r, a))).apply
          ((FileOp.failed_append (r ++ [0])).apply fs)).gone.count x := by
      intro x
      simp only [FileOp.apply]
      split_ifs
      · exact List.count_le_count_cons
      · exact le_rfl
    refine ⟨⟨⟨_, _, happ⟩, happ_held, ⟨_, _, htr⟩, ?_, trivial⟩, fun x => ⟨le_rfl, ?_, ?_⟩⟩
    · intro x
      rw [Held, happ.names, htr.names]
      refine ⟨hgone x, fun hx => Or.inl ?_⟩
      simp only [List.mem_append, List.mem_singleton] at hx ⊢
      tauto
    · rw [h.total, happ.total]
      simp only [FileOp.apply, List.count_append]
      omega
    · rw [Kept, h.total, htr.total, List.count_append, List.count_append]
      have := hgone x
      omega

/-- move_failed and the lister: the list gets the names before the failed-list loses them, and the lister only writes an
empty list -/
theorem au_list_guarded (h : HoldsRecords fs ls ts) (hlen : fs.failed.length < 2 ^ 31) (sys : ListSys)
    (hw : sys.move.write.Whole) : Guarded fs (au_list fs sys).2 := by
  have happ := h.list_append
  have happ_held := h.held happ rfl fun r hr => by
    simp only [List.mem_append, List.mem_cons, List.mem_reverse] at hr ⊢
    tauto
  have happ_total : ∀ r, total r fs ≤ total r ((FileOp.list_append (0 :: encode ts.reverse)).apply fs) := by
    intro r
    rw [h.total, happ.total]
    simp only [FileOp.apply, List.count_append]
    omega
  unfold au_list
  cases sys.early with
  | some err => exact guarded_nil fs
  | none =>
    simp only
    split_ifs with hfstat hlist
    · exact guarded_nil fs
    · rw [h.failed] at hlen ⊢
      rcases move_failed_spec ts h.failed_ok hlen sys.move hw with hops | hops | hops
      · rw [hops]
        exact guarded_nil fs
      · rw [hops]
        exact ⟨⟨⟨_, _, happ⟩, happ_held, trivial⟩, fun r => ⟨le_rfl, happ_total r⟩⟩
      · rw [hops]
        have htr := happ.failed_truncate
        have htr_held := happ.held htr rfl fun r hr => by
          simp only [List.mem_append, List.mem_cons, List.mem_reverse, List.not_mem_nil, or_false] at hr ⊢
          tauto
        refine ⟨⟨⟨_, _, happ⟩, happ_held, ⟨_, _, htr⟩, htr_held, trivial⟩, fun r => ⟨le_rfl, happ_total r, ?_⟩⟩
        rw [Kept, h.total, htr.total]
        simp only [FileOp.apply, List.count_append, List.count_cons, List.count_reverse, List.count_nil]
        omega
    · have hnil : ls = [] := by
        by_contra hne
        have := encode_pos hne
        rw [← h.list, not_not.1 hlist] at this
        simp at this
      cases sys.output with
      | none => exact guarded_nil fs
      | some l =>
        have hwr := h.list_write l
        refine ⟨⟨⟨_, _, hwr⟩, h.held hwr rfl ?_, trivial⟩, fun r => ⟨le_rfl, ?_⟩⟩
        · intro r hr
          rw [hnil, List.nil_append] at hr
          exact List.mem_append_right _ hr
        · rw [Kept, h.total, hwr.total, hnil]
          simp only [FileOp.apply, List.count_nil]
          omega

end Actions

/-! ## Runs -/

/-- both files are smaller than 2^31 bytes -/
def Small (fs : Files) : Prop := fs.list.length < 2 ^ 31 ∧ fs.failed.length < 2 ^ 31

instance : DecidablePred Small := fun fs =>
  inferInstanceAs (Decidable (fs.list.length < 2 ^ 31 ∧ fs.failed.length < 2 ^ 31))

/-- every write(2) of the turn is complete or writes nothing -/
def Turn.Whole (t : Turn S) : Prop := t.list.move.write.Whole ∧ ∀ m ∈ t.steps, m.write.Whole

/-- the files stay small while the changes are made -/
def SmallAlong (fs : Files) (ops : List FileOp) : Prop := ∀ pre, pre <+: ops → Small (apply_all fs pre)

theorem SmallAlong.start {fs : Files} {ops : List FileOp} (h : SmallAlong fs ops) : Small fs := h [] (List.nil_prefix)

theorem SmallAlong.left {fs : Files} {a b : List FileOp} (h : SmallAlong fs (a ++ b)) : SmallAlong fs a :=
  fun pre hp => h pre (hp.trans (List.prefix_append a b))

theorem SmallAlong.right {fs : Files} {a b : List FileOp} (h : SmallAlong fs (a ++ b)) :
    SmallAlong (apply_all fs a) b := by
  intro pre hp
  rw [← apply_all_append]
  exact h (a ++ pre) ((List.prefix_append_right_inj a).2 hp)

/-- the first k changes of a ++ b: those of a, if the process dies there, or all of a and some of b -/
theorem take_guarded {fs : Files} {a b : List FileOp} {k : ℕ} (ha : Guarded fs a)
    (hb : SmallAlong (apply_all fs a) (b.take (k - a.length)) → Guarded (apply_all fs a) (b.take (k - a.length)))
    (hs : SmallAlong fs ((a ++ b).take k)) : Guarded fs ((a ++ b).take k) := by
  rw [List.take_append] at hs ⊢
  by_cases hk : a.length ≤ k
  · rw [List.take_of_length_le hk] at hs ⊢
    exact ha.append (hb hs.right)
  · have hzero : k - a.length = 0 := by omega
    rw [hzero, List.take_zero, List.append_nil]
    exact ha.take k

section RunProofs

variable (bs : Bsearch (compare : ℤ → ℤ → Ordering) (Stbr.brid (S := S)))

theorem mvdown_steps_guarded (cur : ℕ) (steps : List (MvSys S)) (hw : ∀ m ∈ steps, m.write.Whole) :
    ∀ (fs : Files) (st : MvState S) (k : ℕ), Wf fs → st.listsz = fs.list.length →
      SmallAlong fs ((mvdown_steps bs cur fs st steps).take k) →
      Guarded fs ((mvdown_steps bs cur fs st steps).take k) := by
  induction steps with
  | nil =>
    intro fs st k _ _ _
    rw [mvdown_steps, List.take_nil]
    exact guarded_nil fs
  | cons sys rest ih =>
    intro fs st k hwf hst hs
    obtain ⟨ls, ts, h⟩ := id hwf
    obtain ⟨hops, hout⟩ := do_mvdown_spec bs fs ls ts h hs.start.1 st hst cur sys (hw sys List.mem_cons_self)
    have hg : Guarded fs (do_mvdown bs fs st cur sys).2 := by
      rcases hops with hnil | ⟨ls', r, rfl, hne, hstep⟩
      · rw [hnil]
        exact guarded_nil fs
      · exact step_guarded h hne hstep
    rw [mvdown_steps] at hs ⊢
    rcases hd : do_mvdown bs fs st cur sys with ⟨out, ops⟩
    rw [hd] at hs hg hout
    cases out with
    | none => exact hg.take k
    | some r =>
      obtain ⟨err, st'⟩ := r
      refine take_guarded hg ?_ hs
      intro hs'
      exact ih (fun m hm => hw m (List.mem_cons_of_mem sys hm)) _ st' _ (safe_wf hwf hg.safe) (hout err st' rfl) hs'

theorem turn_guarded (fs : Files) (t : Turn S) (k : ℕ) (hwf : Wf fs) (hw : t.Whole)
    (hs : SmallAlong fs ((turn bs fs t).take k)) : Guarded fs ((turn bs fs t).take k) := by
  obtain ⟨ls, ts, h⟩ := id hwf
  have hg := au_list_guarded h hs.start.2 t.list hw.1
  unfold turn at hs ⊢
  rcases hl : au_list fs t.list with ⟨out, ops⟩
  rw [hl] at hs hg
  cases out with
  | none => exact hg.take k
  | some err =>
    simp only at hs ⊢
    split_ifs at hs ⊢
    · exact hg.take k
    · exact take_guarded hg (mvdown_steps_guarded bs t.cur t.steps hw.2 _ _ _ (safe_wf hwf hg.safe) rfl) hs

theorem run_guarded (turns : List (Turn S × ℕ)) (hw : ∀ t ∈ turns, t.1.Whole) :
    ∀ fs : Files, Wf fs → SmallAlong fs (run bs fs turns) → Guarded fs (run bs fs turns) := by
  induction turns with
  | nil =>
    intro fs _ _
    exact guarded_nil fs
  | cons tk rest ih =>
    obtain ⟨t, k⟩ := tk
    intro fs hwf hs
    rw [run] at hs ⊢
    have hg := turn_guarded bs fs t k hwf (hw (t, k) List.mem_cons_self) hs.left
    exact hg.append (ih (fun u hu => hw u (List.mem_cons_of_mem _ hu)) _ (safe_wf hwf hg.safe) hs.right)

end RunProofs

/-- **No file name is lost.** Start from a list and a failed-list of non-empty records, and run any number of turns,
each dying after any number of changes, with any outcome of the system calls, every write complete or writing nothing,
the files staying below 2^31 bytes. Between any two points of the run, a record that is in one of the files at the first
one is in one of them at the second, unless an attempt with an excused outcome has consumed it in between. And for every
record the copies in both files, together with those consumed so, are never fewer than at the start. -/
theorem no_name_lost (bs : Bsearch (compare : ℤ → ℤ → Ordering) (Stbr.brid (S := S))) (fs : Files)
    (ls ts : List Bytes) (hl : fs.list = encode ls) (hf : fs.failed = encode ts)
    (hrec : ∀ r ∈ ls ++ ts, (0 : UInt8) ∉ r ∧ r ≠ []) (turns : List (Turn S × ℕ)) (hw : ∀ t ∈ turns, t.1.Whole)
    (hs : SmallAlong fs (run bs fs turns)) (pre post : List FileOp) (hrun : run bs fs turns = pre ++ post)
    (r : Bytes) :
    (r ∈ (apply_all fs pre).names → r ∈ (apply_all fs (pre ++ post)).names ∨
        (apply_all fs pre).gone.count r < (apply_all fs (pre ++ post)).gone.count r) ∧
      fs.names.count r + fs.gone.count r ≤ (apply_all fs pre).names.count r + (apply_all fs pre).gone.count r := by
  have hwf : Wf fs := ⟨ls, ts, hl, fun r hr => (hrec r (List.mem_append_left _ hr)).1, hf,
    fun r hr => hrec r (List.mem_append_right _ hr)⟩
  have hg := run_guarded bs turns hw fs hwf hs
  rw [hrun] at hg
  refine ⟨?_, ?_⟩
  · rw [apply_all_append]
    exact (safe_held (safe_drop hg.safe) r).2
  · have := (hg.take pre.length).kept r
    rw [List.take_left] at this
    exact kept_end this

/-- the records `1 8 a` and `2 8 b` -/
def twoNames : Listing := ⟨[[49, 32, 56, 32, 97], [50, 32, 56, 32, 98]], by decide⟩

/-- a turn with one step: the file is busy, and has one link -/
def busyTurn : Turn Unit where
  list := ⟨none, true, ⟨true, true, true, .full, true, [], 0⟩, some twoNames, 0⟩
  fstat := true
  mmap := true
  mvdown := ⟨false, false, ⟨0, ()⟩, ⟨0, ()⟩⟩
  stbr := [⟨0, ()⟩]
  cur := 0
  steps := [⟨none, some .EBUSY, ⟨false, false, ⟨0, ()⟩, ⟨1, ()⟩⟩, true, true, 1, .full, true, true⟩]

/-- nothing is listed at first; the second change is the append to the failed-list, behind which the first turn dies -/
def busyTurns : List (Turn Unit × ℕ) := [(busyTurn, 2), (busyTurn, 9)]

/-- the first turn has the names listed, and dies before it cuts the list; the second one merges the failed-list and
runs to its end -/
theorem no_name_lost_busy :
    run (Bsearch.linear compare Stbr.brid) ⟨[], [], []⟩ busyTurns =
        [.list_write (encode twoNames.recs), .failed_append [50, 32, 56, 32, 98, 0],
          .list_append [0, 50, 32, 56, 32, 98, 0], .failed_truncate 0, .failed_append [50, 32, 56, 32, 98, 0],
          .list_truncate 13 (some ([50, 32, 56, 32, 98], .busy (some 1)))] ∧
      ∀ pre post, run (Bsearch.linear compare Stbr.brid) ⟨[], [], []⟩ busyTurns = pre ++ post →
        ∀ r, r ∈ (apply_all ⟨[], [], []⟩ pre).names → r ∈ (apply_all ⟨[], [], []⟩ (pre ++ post)).names ∨
          (apply_all ⟨[], [], []⟩ pre).gone.count r < (apply_all ⟨[], [], []⟩ (pre ++ post)).gone.count r := by
  refine ⟨by decide +kernel, ?_⟩
  intro pre post hrun r
  have hwhole : busyTurn.Whole := ⟨Or.inl rfl, fun m hm => by rw [List.mem_singleton.1 hm]; exact Or.inl rfl⟩
  have hsmall : ∀ p ∈ (run (Bsearch.linear compare Stbr.brid) ⟨[], [], []⟩ busyTurns).inits,
      Small (apply_all ⟨[], [], []⟩ p) := by decide +kernel
  refine (no_name_lost _ ⟨[], [], []⟩ [] [] rfl rfl nofun _ ?_ (fun p hp => hsmall p ((List.mem_inits p _).2 hp))
    pre post hrun r).1
  intro t ht
  simp only [busyTurns, List.mem_cons, List.not_mem_nil, or_false] at ht
  rcases ht with rfl | rfl <;> exact hwhole

end AufsUtil.Fhsm
