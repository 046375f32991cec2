/-
Where the branch statistics come from (`do_mvdown` in `fhsm/mvdown.c`, and the assertion of `handle_fhsm`).

The end of do_mvdown copies the statistics of both branches from the static `mvdown` to comm->stbr and looks up the
entry of the lower branch, which becomes `next`. It is reached after every file that is finished, and after the last one
of the list, however the attempt went. `stores` lists what a turn of the loop writes (`stores_table`), `reported` what
the kernel has reported in it.

- `statistics_reported_iff`: what do_mvdown stores was reported by the kernel, and `next` is not the current branch, if
  and only if every turn that stores had a successful ioctl(2) that named the current branch: a vanished or refused file
  stores what `mvdown` held.

What the model keeps of C: the statistics of `cur` are stored before the assertion on brid.
-/
import Mathlib.Tactic
import AufsUtil.Fhsm.Turnover

namespace AufsUtil.Fhsm

open AufsUtil.CStr AufsUtil.SortSearch AufsUtil.Runs

/-! ## What is stored -/

section Stored

variable (bs : Bsearch (compare : ℤ → ℤ → Ordering) (Stbr.brid (S := Stfs)))
  (bw : Bsearch bridOrd (Wmark.brid (F := ℚ))) (lcopy : Aufhsm ℚ) (cur : ℕ)

/-- the entries of comm->stbr that the end of do_mvdown writes, in order; the first also if the assertion fails -/
def stored_stbr (st : MvState Stfs) : List (ℕ × Stbr Stfs) :=
  match st.stbr[cur]? with
  | none => []
  | some c =>
    if st.mvdown.stfs_failed then []
    else
      let c' := { c with stfs := st.mvdown.upper.stfs }
      (cur, c') ::
        if c.brid ≠ st.mvdown.upper.brid ∨ st.mvdown.bottom then []
        else ((au_stbr_bsearch bs st.mvdown.lower.brid (st.stbr.set cur c')).map fun k => (k, st.mvdown.lower)).toList

/-- what do_mvdown writes in one turn -/
def stores (c : Child) (p : Poll) : List (ℕ × Stbr Stfs) :=
  if p.exit || p.signal then []
  else
    match au_fname_one c.files.list c.st.listsz.toNat with
    | none => []
    | some fname =>
      let d := do_mvdown1 c.files.list c.files.failed fname p.sys (request cur c.st)
      if d.1 ≠ 0 ∨ !p.sys.ftr then []
      else if c.st.listsz - fname.len ≠ 0 ∧ d.2.1 = false then []
      else stored_stbr bs cur { c.st with mvdown := d.2.2.1, next := none, listsz := c.st.listsz - fname.len }

/-- these are the writes: the table after a turn is the old one with them -/
theorem store_stbr_stbr {st st' : MvState Stfs} (h : store_stbr bs cur st = some st') :
    st'.stbr = (stored_stbr bs cur st).foldl (fun l w => l.set w.1 w.2) st.stbr := by
  unfold store_stbr at h
  unfold stored_stbr
  by_cases hf : st.mvdown.stfs_failed = true
  · rw [if_pos hf] at h
    cases h
    cases hc : st.stbr[cur]? <;> simp [hf]
  rw [if_neg hf] at h
  cases hc : st.stbr[cur]? with
  | none =>
    rw [hc] at h
    cases h
  | some c =>
    rw [hc] at h
    simp only at h ⊢
    rw [if_neg hf]
    by_cases hb : c.brid ≠ st.mvdown.upper.brid
    · rw [if_pos hb] at h
      cases h
    rw [if_neg hb] at h
    by_cases hbot : st.mvdown.bottom = true
    · rw [if_pos hbot] at h
      cases h
      simp [hbot]
    · rw [if_neg hbot] at h
      rw [if_neg (by simp [hbot, not_not.1 hb])]
      cases hk : au_stbr_bsearch bs st.mvdown.lower.brid (st.stbr.set cur { c with stfs := st.mvdown.upper.stfs }) with
      | none =>
        rw [hk] at h
        cases h
        simp
      | some k =>
        rw [hk] at h
        cases h
        simp

/-- do_mvdown gets to the statistics in this turn, and takes them for valid -/
def Storing (c : Child) (p : Poll) : Prop :=
  p.exit = false ∧ p.signal = false ∧ (p.sys.openat = none → p.sys.answer.stfs_failed = false) ∧
    ∃ r o fname, take_last c.files.list = some (r, o) ∧ au_fname_one c.files.list c.files.list.length = some fname ∧
      (p.sys.passes c.files.list c.files.failed fname && p.sys.ftr) = true ∧ (o = [] ∨ p.sys.done = true)

theorem stored_failed {st : MvState Stfs} (h : st.mvdown.stfs_failed = true) : stored_stbr bs cur st = [] := by
  unfold stored_stbr
  cases st.stbr[cur]? <;> simp [h]

/-- what a turn that has a name to take writes: the statistics, if the file passes and is the last or finished -/
theorem stores_eq {c : Child} {p : Poll} (hc : Looping bw lcopy cur c) (hpoll : ¬ (p.exit || p.signal) = true) {fname : Fname}
    (hone : au_fname_one c.files.list c.files.list.length = some fname) :
    ∃ r o, take_last c.files.list = some (r, o) ∧ stores bs cur c p =
      if (p.sys.passes c.files.list c.files.failed fname && p.sys.ftr) = true ∧ (o = [] ∨ p.sys.done = true) then
        stored_stbr bs cur (after_cut cur p.sys o c.st)
      else [] := by
  obtain ⟨herr, hdone, hm, -⟩ := do_mvdown1_cases c.files.list c.files.failed fname p.sys (request cur c.st)
  obtain ⟨-, hle, -⟩ := au_fname_one_len hone
  have hlast := congrArg (Option.map fun f => ((cstr c.files.list f.atime, cstr c.files.list f.name),
    ftruncate c.files.list ((c.files.list.length : ℤ) - f.len).toNat)) hone
  refine ⟨_, _, hlast, ?_⟩
  set o := ftruncate c.files.list ((c.files.list.length : ℤ) - fname.len).toNat with ho
  have hlen : c.st.listsz - fname.len = o.length := by
    rw [ho, length_ftruncate, hc.listsz]
    omega
  unfold stores
  rw [if_neg hpoll, hc.listsz, Int.toNat_natCast, hone, ← hc.listsz]
  simp only [herr, hdone, hm, hlen]
  cases hpass : (p.sys.passes c.files.list c.files.failed fname && p.sys.ftr) with
  | false =>
    rw [if_pos, if_neg (by simp)]
    rcases Bool.and_eq_false_iff.1 hpass with h | h <;> simp [h]
  | true =>
    obtain ⟨h1, h2⟩ := Bool.and_eq_true_iff.1 hpass
    rw [if_neg (by simp [h1, h2])]
    by_cases hfin : o = [] ∨ p.sys.done = true
    · rw [if_neg, if_pos ⟨rfl, hfin⟩]
      · rfl
      · intro ⟨hne, hd⟩
        rcases hfin with hnil | hd'
        · exact hne (by rw [hnil]; rfl)
        · simp [hd] at hd'
    · rw [if_pos, if_neg fun h => hfin h.2]
      rw [not_or, Bool.not_eq_true] at hfin
      exact ⟨by simpa using hfin.1, hfin.2⟩

/-- nothing is written, or the end of do_mvdown is reached -/
theorem stores_cases {c : Child} {p : Poll} (hc : Looping bw lcopy cur c) :
    (¬ Storing c p ∧ stores bs cur c p = []) ∨
      (Storing c p ∧ ∃ r o, take_last c.files.list = some (r, o) ∧
        stores bs cur c p = stored_stbr bs cur (after_cut cur p.sys o c.st)) := by
  by_cases hpoll : (p.exit || p.signal) = true
  · refine Or.inl ⟨?_, by rw [stores, if_pos hpoll]⟩
    intro ⟨he, hs, _⟩
    simp [he, hs] at hpoll
  cases hone : au_fname_one c.files.list c.files.list.length with
  | none =>
    refine Or.inl ⟨?_, ?_⟩
    · intro ⟨_, _, _, _, _, _, _, h, _⟩
      simp [hone] at h
    · rw [stores, if_neg hpoll, hc.listsz, Int.toNat_natCast, hone]
  | some fname =>
    obtain ⟨r, o, hlast, hstores⟩ := stores_eq bs bw lcopy cur hc hpoll hone
    by_cases hend : (p.sys.passes c.files.list c.files.failed fname && p.sys.ftr) = true ∧ (o = [] ∨ p.sys.done = true)
    · rw [if_pos hend] at hstores
      by_cases hvalid : p.sys.openat = none → p.sys.answer.stfs_failed = false
      · have hexit : p.exit = false ∧ p.signal = false := by simpa using hpoll
        exact Or.inr ⟨⟨hexit.1, hexit.2, hvalid, r, o, fname, hlast, hone, hend⟩, r, o, hlast, hstores⟩
      · -- the kernel could not tell the statistics
        rw [Classical.not_imp, Bool.not_eq_false] at hvalid
        refine Or.inl ⟨fun ⟨_, _, hv, _⟩ => by simp [hv hvalid.1] at hvalid, hstores.trans ?_⟩
        apply stored_failed
        rw [after_cut, MvSys.filled, if_pos hvalid.1]
        exact hvalid.2
    · rw [if_neg hend] at hstores
      refine Or.inl ⟨?_, hstores⟩
      rintro ⟨-, -, -, r', o', f, hlast', hone', hpass, hfin⟩
      obtain rfl := Option.some.inj (hone'.symm.trans hone)
      obtain ⟨-, rfl⟩ := Prod.mk.inj (Option.some.inj (hlast'.symm.trans hlast))
      exact hend ⟨hpass, hfin⟩

/-- `stores` are the writes of the turn: the table after it is the old one with them -/
theorem stores_table {c c' : Child} {p : Poll} (hc : Looping bw lcopy cur c)
    (h : child_step bs bw lcopy cur c p = some c') (hleft : c'.left ≠ some .gone) :
    c'.st.stbr = (stores bs cur c p).foldl (fun l w => l.set w.1 w.2) c.st.stbr := by
  rcases (child_step_cases bs bw lcopy cur hc h).2 with ⟨hp, hst, -⟩ | ⟨-, -, hl⟩ |
    ⟨r, o, fname, hlast, hone, hpass, hst, -⟩ | ⟨r, o, hlast, hne, hdone, -, hst, -, -⟩ |
    ⟨hpoll, r, o, fname, hlast, hone, hpass, hdone, -, ⟨hst, -⟩ | ⟨-, -, hl⟩⟩
  · rcases stores_cases bs bw lcopy cur (p := p) hc with ⟨-, hnil⟩ | ⟨hsto, -⟩
    · rw [hnil, hst]
      rfl
    · simp [hsto.1, hsto.2.1] at hp
  · exact absurd hl hleft
  · rcases stores_cases bs bw lcopy cur (p := p) hc with ⟨-, hnil⟩ | ⟨⟨-, -, -, _, _, f, -, hf, hpass', -⟩, -⟩
    · rw [hnil, hst]
      rfl
    · obtain rfl := Option.some.inj (hf.symm.trans hone)
      simp [hpass] at hpass'
  · rcases stores_cases bs bw lcopy cur (p := p) hc with ⟨-, hnil⟩ | ⟨⟨-, -, -, _, o', _, ho', -, -, hfin⟩, -⟩
    · rw [hnil, hst]
      rfl
    · obtain ⟨-, rfl⟩ := Prod.mk.inj (Option.some.inj (ho'.symm.trans hlast))
      rcases hfin with hnil | hd
      · exact absurd hnil hne
      · simp [hdone] at hd
  · have htable := store_stbr_stbr bs cur hst
    rcases stores_cases bs bw lcopy cur (p := p) hc with ⟨hno, hnil⟩ | ⟨-, r', o', hlast', hstores⟩
    · have hfailed : (after_cut cur p.sys o c.st).mvdown.stfs_failed = true := by
        by_contra hvalid
        refine hno ⟨hpoll.1, hpoll.2, ?_, r, o, fname, hlast, hone, hpass, hdone⟩
        intro hopen
        rw [Bool.not_eq_true, after_cut, MvSys.filled, if_pos hopen] at hvalid
        exact hvalid
      rw [htable, hnil, stored_failed bs cur hfailed]
      rfl
    · obtain ⟨-, rfl⟩ := Prod.mk.inj (Option.some.inj (hlast'.symm.trans hlast))
      rw [htable, hstores]
      rfl
  · exact absurd hl hleft

/-- what this turn stores was reported by the kernel for that branch, and `next` is not the current branch -/
def Sound (c : Child) (p : Poll) : Prop :=
  (∀ w ∈ stores bs cur c p, w.2 ∈ c.reports ++ reported c p) ∧
    ∀ c', child_step bs bw lcopy cur c p = some c' → c'.st.next ≠ some cur

/-- the kernel's answer names the current branch: as the upper one, or as the lower one with the same figures -/
def names_current (c : Child) (p : Poll) : Prop :=
  ∃ stbr, c.st.stbr[cur]? = some stbr ∧
    (p.sys.answer.upper.brid = stbr.brid ∨ p.sys.answer.lower = { stbr with stfs := p.sys.answer.upper.stfs })

/-- a turn that stores had a successful ioctl that named the current branch -/
def FromKernel (c : Child) (p : Poll) : Prop :=
  Storing c p → p.sys.openat = none ∧ p.sys.ioctl = none ∧ names_current cur c p

/-- `next` is the current branch only if both branches of `mvdown` are the same -/
theorem store_next_cur {st st' : MvState Stfs} (h : store_stbr bs cur st = some st') (hn : st.next = none)
    (hn' : st'.next = some cur) : st.mvdown.stfs_failed = false ∧ st.mvdown.upper.brid = st.mvdown.lower.brid := by
  unfold store_stbr at h
  by_cases hf : st.mvdown.stfs_failed = true
  · rw [if_pos hf] at h
    cases h
    simp [hn] at hn'
  rw [if_neg hf] at h
  refine ⟨by simpa using hf, ?_⟩
  cases hc : st.stbr[cur]? with
  | none =>
    rw [hc] at h
    cases h
  | some c =>
    rw [hc] at h
    simp only at h
    by_cases hb : c.brid ≠ st.mvdown.upper.brid
    · rw [if_pos hb] at h
      cases h
    rw [if_neg hb] at h
    by_cases hbot : st.mvdown.bottom = true
    · rw [if_pos hbot] at h
      cases h
      simp [hn] at hn'
    rw [if_neg hbot] at h
    cases hk : au_stbr_bsearch bs st.mvdown.lower.brid (st.stbr.set cur { c with stfs := st.mvdown.upper.stfs }) with
    | none =>
      rw [hk] at h
      cases h
      simp [hn] at hn'
    | some k =>
      rw [hk] at h
      cases h
      obtain rfl := Option.some.inj hn'
      obtain ⟨a, ha, heq⟩ := bs.sound _ _ _ hk
      have hlt : k < st.stbr.length := (List.getElem?_eq_some_iff.1 hc).1
      rw [List.getElem?_set_self hlt] at ha
      obtain rfl := Option.some.inj ha
      exact ((not_not.1 hb).symm.trans (compare_eq_iff_eq.1 heq).symm)

theorem next_cur {c c' : Child} {p : Poll} (hc : Looping bw lcopy cur c)
    (h : child_step bs bw lcopy cur c p = some c') (hn : c'.st.next = some cur) :
    Storing c p ∧ (p.sys.filled (request cur c.st)).upper.brid = (p.sys.filled (request cur c.st)).lower.brid := by
  rcases (child_step_cases bs bw lcopy cur hc h).2 with ⟨-, hst, -⟩ | ⟨-, hst, -⟩ | ⟨-, -, -, -, -, -, hst, -⟩ |
    ⟨_, _, -, -, -, -, hst, -, -⟩ | ⟨hpoll, r, o, fname, hlast, hone, hpass, hdone, -, ⟨hst, -⟩ | ⟨-, hst, -⟩⟩
  · simp [hst, hc.next] at hn
  · simp [hst, hc.next] at hn
  · simp [hst, hc.next] at hn
  · simp [hst, after_cut] at hn
  · obtain ⟨hvalid, hbr⟩ := store_next_cur bs cur hst rfl hn
    refine ⟨⟨hpoll.1, hpoll.2, ?_, r, o, fname, hlast, hone, hpass, hdone⟩, hbr⟩
    intro hopen
    rwa [after_cut, MvSys.filled, if_pos hopen] at hvalid
  · simp [hst, hc.next] at hn

theorem sound_iff (c : Child) (p : Poll) (c' : Child)
    (hk : p.sys.openat = none → p.sys.ioctl = none → p.sys.answer.upper.brid ≠ p.sys.answer.lower.brid)
    (hc : c.left = none → Looping bw lcopy cur c) (h : child_step bs bw lcopy cur c p = some c') :
    Sound bs bw lcopy cur c p ↔ FromKernel cur c p := by
  have hcl := hc (left_of_step bs bw lcopy cur h)
  obtain ⟨stbr, hs⟩ := hcl.entry
  rcases stores_cases bs bw lcopy cur (p := p) hcl with ⟨hno, hnil⟩ | ⟨hsto, r, o, hlast, hstores⟩
  · refine ⟨fun _ hst => absurd hst hno, fun _ => ⟨fun w hw => by simp [hnil] at hw, ?_⟩⟩
    intro d hd hn
    exact hno (next_cur bs bw lcopy cur hcl hd hn).1
  · have hs' : (after_cut cur p.sys o c.st).stbr[cur]? = some stbr := hs
    have hm : (after_cut cur p.sys o c.st).mvdown = p.sys.filled (request cur c.st) := rfl
    have hvalid : (p.sys.filled (request cur c.st)).stfs_failed = false := by
      by_cases hopen : p.sys.openat = none
      · rw [MvSys.filled, if_pos hopen]
        exact hsto.2.2.1 hopen
      · rw [MvSys.filled, if_neg hopen]
        rfl
    rw [stored_stbr, hs'] at hstores
    simp only [hm, hvalid, Bool.false_eq_true, if_false] at hstores
    constructor
    · intro hsound _
      have hmem := hsound.1 (cur, { stbr with stfs := (p.sys.filled (request cur c.st)).upper.stfs }) (by simp [hstores])
      rw [hcl.reports, List.nil_append, reported] at hmem
      by_cases hrep : ((take_last c.files.list).isSome && p.sys.reports) = true
      · rw [if_pos hrep] at hmem
        have hreports : (p.sys.openat = none ∧ p.sys.ioctl = none) ∧ p.sys.answer.stfs_failed = false := by
          simpa [hlast, MvSys.reports] using hrep
        obtain ⟨⟨hopen, hio⟩, -⟩ := hreports
        rw [MvSys.filled, if_pos hopen] at hmem
        refine ⟨hopen, hio, stbr, hs, ?_⟩
        rcases List.mem_cons.1 hmem with hu | hl
        · exact Or.inl (by rw [← hu])
        · exact Or.inr (List.mem_singleton.1 hl).symm
      · rw [if_neg hrep] at hmem
        simp at hmem
    · intro hfrom
      obtain ⟨hopen, hio, stbr', hs2, hname⟩ := hfrom hsto
      obtain rfl := Option.some.inj (hs.symm.trans hs2)
      rw [MvSys.filled, if_pos hopen] at hstores hvalid
      have hrep : reported c p = [p.sys.answer.upper, p.sys.answer.lower] := by
        rw [reported, hlast, MvSys.reports, hopen, hio, hvalid]
        rfl
      refine ⟨?_, ?_⟩
      · intro w hw
        rw [hrep, hcl.reports, List.nil_append]
        rw [hstores] at hw
        rcases List.mem_cons.1 hw with rfl | hw
        · rcases hname with hu | hl
          · exact List.mem_cons.2 (Or.inl (by rw [← hu]))
          · simp [hl]
        · split_ifs at hw
          · simp at hw
          · obtain ⟨k, -, rfl⟩ : ∃ k, _ ∧ (k, p.sys.answer.lower) = w := by simpa using hw
            simp
      · intro d hd hn
        have hbr := (next_cur bs bw lcopy cur hcl hd hn).2
        rw [MvSys.filled, if_pos hopen] at hbr
        exact hk hopen hio hbr

/-- **Statistics come from the kernel exactly when the file was moved.** With a kernel that names two different
branches whenever the move succeeds, in every run of the loop: all that do_mvdown stores was reported by the kernel for
that branch and `next` is never the current branch, if and only if every turn that stores had a successful ioctl that
named the current branch. -/
theorem statistics_reported_iff (s : Start bw lcopy cur) (ps : List Poll) (c : Child)
    (hk : ∀ p ∈ ps, p.sys.openat = none → p.sys.ioctl = none → p.sys.answer.upper.brid ≠ p.sys.answer.lower.brid)
    (h : exec (child_step bs bw lcopy cur) s.child ps = some c) :
    Along (child_step bs bw lcopy cur) (Sound bs bw lcopy cur) s.child ps ↔
      Along (child_step bs bw lcopy cur) (FromKernel cur) s.child ps := by
  have hstart : s.child.left = none → Looping bw lcopy cur s.child := fun _ => ⟨rfl, s.usage, rfl, rfl⟩
  exact along_congr _ _ (fun c => c.left = none → Looping bw lcopy cur c) _ _ (looping_step bs bw lcopy cur)
    (sound_iff bs bw lcopy cur) hk hstart h

end Stored

theorem statistics_reported_moved : ∃ c,
    exec (child_step linear_stbr linear_wmark twoMarks 0) fullBranch.child [tried none none] = some c ∧
    Along (child_step linear_stbr linear_wmark twoMarks 0) (Sound linear_stbr linear_wmark twoMarks 0)
      fullBranch.child [tried none none] := by
  obtain ⟨c, hc⟩ := Option.isSome_iff_exists.1 (show (exec (child_step linear_stbr linear_wmark twoMarks 0)
    fullBranch.child [tried none none]).isSome = true by decide +kernel)
  refine ⟨c, hc, (statistics_reported_iff linear_stbr linear_wmark twoMarks 0 fullBranch _ c ?_ hc).2 ⟨?_, ?_⟩⟩
  · intro p hp _ _
    rw [List.mem_singleton.1 hp]
    decide
  · intro _
    exact ⟨rfl, rfl, ⟨0, ⟨100, 10, 100, 90⟩⟩, rfl, Or.inl rfl⟩
  · intro _ _
    trivial

/-- the first name has vanished: the zeroes of `mvdown` are stored for branch 0, and `next` is branch 0 again -/
theorem vanished_name_stores :
    ((exec (child_step linear_stbr linear_wmark twoMarks 0) fullBranch.child [tried (some .ENOENT) none]).map
      fun c => (c.st.next, c.st.stbr[0]?)) = some (some 0, some ⟨0, ⟨0, 0, 0, 0⟩⟩) ∧
    ¬ Along (child_step linear_stbr linear_wmark twoMarks 0) (Sound linear_stbr linear_wmark twoMarks 0)
      fullBranch.child [tried (some .ENOENT) none] := by
  have hrun : ((exec (child_step linear_stbr linear_wmark twoMarks 0) fullBranch.child [tried (some .ENOENT) none]).map
      fun c => (c.st.next, c.st.stbr[0]?)) = some (some 0, some ⟨0, ⟨0, 0, 0, 0⟩⟩) := by decide +kernel
  refine ⟨hrun, ?_⟩
  intro ⟨hsound, _⟩
  obtain ⟨c, hc, hres⟩ := Option.map_eq_some_iff.1 hrun
  obtain ⟨d, hd, hc⟩ := (exec_cons _).1 hc
  obtain rfl := Option.some.inj hc
  exact hsound.2 d hd (Prod.mk.inj hres).1


end AufsUtil.Fhsm
