/-
The bitmap of uloop when I/O fails.

A change of the page reads the other page into the buffer of the one in memory. When that read fails, the buffer is to
be restored; but what is read then is page pindex - 1, which is the page that was in memory only if the change was to
the next one.

- `ulo_bmp_pindex_cases`: what a change of the page can do, however its I/O turns out.
- `ulo_bmp_pindex_failed`: after a failed read the page in memory has become a copy of page pindex - 1.
- `flat_bitmap_io`: any sequence of sections, of which any may fail; those that do not are done to the array as long as
  page pindex - 1 is the right one.
- `restored_iff`: in any state of the driver, when the page in memory survives.

The file changes by the driver only.
-/
import Mathlib.Tactic
import AufsUtil.Lib.Runs
import AufsUtil.Uloop.Flat

namespace AufsUtil.Uloop

open AufsUtil.CStr AufsUtil.Bitmap AufsUtil.Runs

/-! ## The I/O of a change -/

variable (PAGE_SIZE : ℕ)

/-- the page in memory is written -/
def page_write (dev : Dev) (io : Io) : ℤ × Bytes :=
  ulo_write dev.bmp dev.bmpbuf PAGE_SIZE (dev.bmpidx * PAGE_SIZE) io.write

/-- the other page is read -/
def page_read (dev : Dev) (pindex : ℕ) (io : Io) : ℤ × Bytes :=
  kernel_read (page_write PAGE_SIZE dev io).2 (pindex * PAGE_SIZE : ℕ) dev.bmpbuf PAGE_SIZE io.read

/-- the read after a failed one -/
def page_restore (dev : Dev) (pindex : ℕ) (io : Io) : ℤ × Bytes :=
  kernel_read (page_write PAGE_SIZE dev io).2 (((pindex * PAGE_SIZE : ℕ) : ℤ) - PAGE_SIZE)
    (page_read PAGE_SIZE dev pindex io).2 PAGE_SIZE io.restore

/-- another page of the bitmap is to be read, and that fails or ends early -/
structure ReadFails (dev : Dev) (pindex : ℕ) (io : Io) : Prop where
  other : dev.bmpidx ≠ pindex
  inside : pindex < dev.bmpsz / PAGE_SIZE
  written : (page_write PAGE_SIZE dev io).1 = 0
  failed : (page_read PAGE_SIZE dev pindex io).1 ≠ PAGE_SIZE

/-- the page before the wanted one is the page in memory, or holds the same in the file -/
def PrevSame (dev : Dev) (pindex : ℕ) : Prop :=
  pindex = dev.bmpidx + 1 ∨ pread dev.bmp ((pindex - 1) * PAGE_SIZE) PAGE_SIZE = dev.bmpbuf

instance (dev : Dev) (pindex : ℕ) : Decidable (PrevSame PAGE_SIZE dev pindex) :=
  inferInstanceAs (Decidable (_ ∨ _))

/-- the change has returned an error, and the page in memory is what it was -/
structure PageKept (dev : Dev) (r : Res) : Prop where
  err : ∃ e, r.err = some e ∧ e ≠ 0
  idx : r.dev.bmpidx = dev.bmpidx
  buf : r.dev.bmpbuf = dev.bmpbuf

variable {PAGE_SIZE : ℕ}

theorem length_read_at (file : Bytes) (pos : ℤ) {buf : Bytes} {n : ℕ} (h : n ≤ buf.length) :
    (read_at file pos buf n).2.length = buf.length := by
  rw [read_at]
  split_ifs
  · rfl
  · have hgot : (pread file pos.toNat n).length ≤ n := List.length_take_le n _
    simp only [List.length_append, List.length_drop]
    omega

/-- the buffer stays a page, whatever is read into it -/
theorem length_kernel_read (file : Bytes) (pos : ℤ) {buf : Bytes} (h : buf.length = PAGE_SIZE) (res : ReadRes) :
    (kernel_read file pos buf PAGE_SIZE res).2.length = PAGE_SIZE := by
  cases res with
  | whole => exact (length_read_at file pos h.ge).trans h
  | short n => exact (length_read_at file pos (by omega)).trans h
  | error e junk => rw [kernel_read, List.length_map, List.length_range, h]

/-- there is no page before the first one -/
theorem kernel_read_before (file buf : Bytes) {pos : ℤ} (hpos : pos < 0) (res : ReadRes) :
    (kernel_read file pos buf PAGE_SIZE res).1 < 0 := by
  have hread : ∀ n, (read_at file pos buf n).1 < 0 := by
    intro n
    rw [read_at, if_pos hpos]
    exact Int.negSucc_lt_zero 21
  cases res with
  | whole => exact hread PAGE_SIZE
  | short n => exact hread _
  | error e junk =>
    rw [kernel_read]
    omega

/-- however the writing turns out, the array stays: only the page in memory is touched in the file -/
theorem flat_of_write {dev : Dev} (h : dev.Ok PAGE_SIZE) (io : Io) :
    (page_write PAGE_SIZE dev io).2.length = dev.bmpsz ∧
      pwrite (page_write PAGE_SIZE dev io).2 (dev.bmpidx * PAGE_SIZE) dev.bmpbuf = dev.flat PAGE_SIZE := by
  have hpage := h.page
  have hpart : ∀ n, (pwrite dev.bmp (dev.bmpidx * PAGE_SIZE) (dev.bmpbuf.take n)).length = dev.bmpsz ∧
      pwrite (pwrite dev.bmp (dev.bmpidx * PAGE_SIZE) (dev.bmpbuf.take n)) (dev.bmpidx * PAGE_SIZE) dev.bmpbuf =
        dev.flat PAGE_SIZE := by
    intro n
    have hle : (dev.bmpbuf.take n).length ≤ dev.bmpbuf.length := List.length_take_le' n _
    exact ⟨(length_pwrite (by omega)).trans h.size, pwrite_pwrite hpage hle⟩
  rw [page_write, ulo_write]
  cases io.write with
  | whole => exact hpart PAGE_SIZE
  | short n => exact hpart _
  | error e => exact ⟨h.size, rfl⟩

/-! ## What a change can do -/

/-- how a change of the page ends -/
inductive Change (PAGE_SIZE : ℕ) (dev : Dev) (pindex : ℕ) (io : Io) (r : Res) : Prop where
  /-- at BUG_ON -/
  | bug (err : r.err = none)
  | made (err : r.err = some 0) (ok : r.dev.Ok PAGE_SIZE) (idx : r.dev.bmpidx = pindex)
      (size : r.dev.bmpsz = dev.bmpsz) (flat : r.dev.flat PAGE_SIZE = dev.flat PAGE_SIZE)
  /-- before anything is read -/
  | kept (kept : PageKept dev r) (ok : r.dev.Ok PAGE_SIZE) (size : r.dev.bmpsz = dev.bmpsz)
      (flat : r.dev.flat PAGE_SIZE = dev.flat PAGE_SIZE)
  /-- with what the restoring read leaves in the buffer -/
  | failed (fails : ReadFails PAGE_SIZE dev pindex io) (err : ∃ e, r.err = some e ∧ e ≠ 0)
      (left : r.dev = { dev with bmp := dev.flat PAGE_SIZE, bmpbuf := (page_restore PAGE_SIZE dev pindex io).2 })

/-- the other page cannot be read: the one in memory is in the file, and the buffer is what the restoring read leaves -/
theorem ulo_bmp_pindex_fails (hP : 0 < PAGE_SIZE) {dev : Dev} (h : dev.Ok PAGE_SIZE) {pindex : ℕ} {io : Io}
    (hfail : ReadFails PAGE_SIZE dev pindex io) :
    (∃ e, (ulo_bmp_pindex PAGE_SIZE dev pindex io).err = some e ∧ e ≠ 0) ∧
      (ulo_bmp_pindex PAGE_SIZE dev pindex io).dev =
        { dev with bmp := dev.flat PAGE_SIZE, bmpbuf := (page_restore PAGE_SIZE dev pindex io).2 } := by
  have hbmp : (page_write PAGE_SIZE dev io).2 = dev.flat PAGE_SIZE := ulo_write_zero hP h.buf hfail.written
  have hlen : dev.bmpsz = (page_write PAGE_SIZE dev io).2.length := by rw [hbmp, h.length_flat]
  unfold ulo_bmp_pindex
  rw [if_neg hfail.other, if_neg (not_lt.2 hfail.inside.le)]
  dsimp only
  rw [← page_write, ← page_read, ← page_restore, if_neg (not_not.2 hfail.written), if_neg (not_not.2 hlen),
    if_neg (not_lt.2 (page_inside hfail.inside)), if_pos hfail.failed]
  refine ⟨⟨_, rfl, ?_⟩, by rw [← hbmp]⟩
  -- -EIO, or the negative result of the read
  split_ifs with hrestore hsign
  · decide
  · decide
  · exact fun hzero => hsign hzero.ge

/-- the pages stay pages, whatever is left in the buffer -/
theorem ReadFails.ok (hP : 0 < PAGE_SIZE) {dev : Dev} (h : dev.Ok PAGE_SIZE) {pindex : ℕ} {io : Io}
    (hfail : ReadFails PAGE_SIZE dev pindex io) : (ulo_bmp_pindex PAGE_SIZE dev pindex io).dev.Ok PAGE_SIZE := by
  rw [(ulo_bmp_pindex_fails hP h hfail).2]
  have hread : (page_read PAGE_SIZE dev pindex io).2.length = PAGE_SIZE := length_kernel_read _ _ h.buf io.read
  exact ⟨h.length_flat, h.whole, h.idx, length_kernel_read _ _ hread io.restore⟩

/-- **Any change of the page**, whatever comes of its I/O. -/
theorem ulo_bmp_pindex_cases (hP : 0 < PAGE_SIZE) {dev : Dev} (h : dev.Ok PAGE_SIZE) (pindex : ℕ) (io : Io) :
    Change PAGE_SIZE dev pindex io (ulo_bmp_pindex PAGE_SIZE dev pindex io) := by
  by_cases hfail : ReadFails PAGE_SIZE dev pindex io
  · obtain ⟨herr, hleft⟩ := ulo_bmp_pindex_fails hP h hfail
    exact .failed hfail herr hleft
  obtain ⟨hlen, hflat⟩ := flat_of_write h io
  unfold ulo_bmp_pindex
  by_cases heq : dev.bmpidx = pindex
  · rw [if_pos heq]
    exact .made rfl h heq rfl rfl
  rw [if_neg heq]
  by_cases hfar : dev.bmpsz / PAGE_SIZE < pindex
  · rw [if_pos hfar]
    exact .kept ⟨⟨- EIO, rfl, by decide⟩, rfl, rfl⟩ h rfl rfl
  rw [if_neg hfar]
  dsimp only
  rw [← page_write, ← page_read, ← page_restore]
  by_cases hwrite : (page_write PAGE_SIZE dev io).1 = 0
  swap
  · rw [if_pos hwrite]
    exact .kept ⟨⟨_, rfl, hwrite⟩, rfl, rfl⟩ ⟨hlen, h.whole, h.idx, h.buf⟩ rfl hflat
  rw [if_neg (not_not.2 hwrite), if_neg (not_not.2 hlen.symm)]
  by_cases hend : dev.bmpsz < pindex * PAGE_SIZE + PAGE_SIZE
  · rw [if_pos hend]
    exact .bug rfl
  have hin : pindex < dev.bmpsz / PAGE_SIZE := by
    rw [Nat.lt_iff_add_one_le, Nat.le_div_iff_mul_le hP, Nat.succ_mul]
    omega
  have hread : (page_read PAGE_SIZE dev pindex io).1 = PAGE_SIZE := by
    by_contra hread
    exact hfail ⟨heq, hin, hwrite, hread⟩
  have hbmp : (page_write PAGE_SIZE dev io).2 = dev.flat PAGE_SIZE := ulo_write_zero hP h.buf hwrite
  have hbuf : (page_read PAGE_SIZE dev pindex io).2 = pread (dev.flat PAGE_SIZE) (pindex * PAGE_SIZE) PAGE_SIZE := by
    rw [← hbmp]
    exact kernel_read_page hP h.buf hread
  have hpage : pindex * PAGE_SIZE + PAGE_SIZE ≤ (dev.flat PAGE_SIZE).length := by
    rw [h.length_flat]
    omega
  rw [if_neg hend, if_neg (not_not.2 hread), hbmp, hbuf]
  exact .made rfl ⟨h.length_flat, h.whole, hin, length_pread hpage⟩ rfl rfl (pwrite_pread hpage)

/-! ## The restoring read -/

/-- a page of the array is the one in memory or one of the file -/
theorem pread_flat {dev : Dev} (h : dev.Ok PAGE_SIZE) (i : ℕ) :
    pread (dev.flat PAGE_SIZE) (i * PAGE_SIZE) PAGE_SIZE =
      if i = dev.bmpidx then dev.bmpbuf else pread dev.bmp (i * PAGE_SIZE) PAGE_SIZE := by
  have hpage := h.page
  split_ifs with hi
  · rw [hi, Dev.flat]
    nth_rewrite 3 [← h.buf]
    exact pread_pwrite hpage
  · refine pread_pwrite_apart hpage ?_
    rw [h.buf, ← Nat.succ_mul, ← Nat.succ_mul]
    rcases Nat.lt_or_gt_of_ne hi with hlt | hgt
    · exact Or.inl (Nat.mul_le_mul_right PAGE_SIZE hlt)
    · exact Or.inr (Nat.mul_le_mul_right PAGE_SIZE hgt)

/-- there is no page before the first: a failed change to it is never restored -/
theorem restored_pos (hP : 0 < PAGE_SIZE) {dev : Dev} {pindex : ℕ} {io : Io}
    (hrestore : (page_restore PAGE_SIZE dev pindex io).1 = PAGE_SIZE) : 0 < pindex := by
  by_contra hzero
  have hbefore : (((pindex * PAGE_SIZE : ℕ) : ℤ) - PAGE_SIZE) < 0 := by
    rw [Nat.eq_zero_of_not_pos hzero, Nat.zero_mul]
    omega
  have hneg : (page_restore PAGE_SIZE dev pindex io).1 < 0 := kernel_read_before _ _ hbefore io.restore
  omega

theorem restore_pos {pindex : ℕ} (hpos : 0 < pindex) :
    (((pindex * PAGE_SIZE : ℕ) : ℤ) - PAGE_SIZE) = ((pindex - 1) * PAGE_SIZE : ℕ) := by
  rw [Nat.sub_mul, Nat.one_mul, Int.ofNat_sub (Nat.le_mul_of_pos_left PAGE_SIZE hpos)]

/-- what the restoring read reads -/
theorem page_restore_page (hP : 0 < PAGE_SIZE) {dev : Dev} (h : dev.Ok PAGE_SIZE) {pindex : ℕ} {io : Io}
    (hwritten : (page_write PAGE_SIZE dev io).1 = 0)
    (hrestore : (page_restore PAGE_SIZE dev pindex io).1 = PAGE_SIZE) :
    (page_restore PAGE_SIZE dev pindex io).2 = pread (dev.flat PAGE_SIZE) ((pindex - 1) * PAGE_SIZE) PAGE_SIZE := by
  have hbmp : (page_write PAGE_SIZE dev io).2 = dev.flat PAGE_SIZE := ulo_write_zero hP h.buf hwritten
  have hbuf : (page_read PAGE_SIZE dev pindex io).2.length = PAGE_SIZE := length_kernel_read _ _ h.buf _
  have hpos := restored_pos hP hrestore
  rw [page_restore, restore_pos hpos] at hrestore ⊢
  rw [kernel_read_page hP hbuf hrestore, hbmp]

theorem page_restore_whole {dev : Dev} (h : dev.Ok PAGE_SIZE) {pindex : ℕ} {io : Io} (hpos : 0 < pindex)
    (hin : pindex < dev.bmpsz / PAGE_SIZE) (hio : io.restore = .whole) :
    (page_restore PAGE_SIZE dev pindex io).1 = PAGE_SIZE := by
  have hpage : (pindex - 1) * PAGE_SIZE + PAGE_SIZE ≤ (page_write PAGE_SIZE dev io).2.length := by
    rw [(flat_of_write h io).1]
    exact page_inside (by omega)
  have hbuf : (page_read PAGE_SIZE dev pindex io).2.length = PAGE_SIZE := length_kernel_read _ _ h.buf _
  rw [page_restore, restore_pos hpos, hio]
  exact congrArg Prod.fst (read_at_page hpage hbuf)

theorem read_fails_of_error {dev : Dev} (h : dev.Ok PAGE_SIZE) {pindex : ℕ} {io : Io} (hne : dev.bmpidx ≠ pindex)
    (hin : pindex < dev.bmpsz / PAGE_SIZE) (hwrite : io.write = .whole) {e : ℕ} {junk : ℕ → UInt8}
    (hread : io.read = .error e junk) : ReadFails PAGE_SIZE dev pindex io where
  other := hne
  inside := hin
  written := by rw [page_write, hwrite, ulo_write_whole _ _ h.buf]
  failed := by
    rw [page_read, hread, kernel_read]
    omega

/-- **A change that fails.** The page before the wanted one is copied over the page in memory. -/
theorem ulo_bmp_pindex_failed (hP : 0 < PAGE_SIZE) {dev : Dev} (h : dev.Ok PAGE_SIZE) {pindex : ℕ} {io : Io}
    (hfail : ReadFails PAGE_SIZE dev pindex io) (hrestore : (page_restore PAGE_SIZE dev pindex io).1 = PAGE_SIZE) :
    (ulo_bmp_pindex PAGE_SIZE dev pindex io).dev.flat PAGE_SIZE =
      pwrite (dev.flat PAGE_SIZE) (dev.bmpidx * PAGE_SIZE)
        (pread (dev.flat PAGE_SIZE) ((pindex - 1) * PAGE_SIZE) PAGE_SIZE) := by
  rw [(ulo_bmp_pindex_fails hP h hfail).2, Dev.flat, page_restore_page hP h hfail.written hrestore]

/-- the page in memory is restored if it is the page before the wanted one, or equal to it -/
theorem page_kept_iff (hP : 0 < PAGE_SIZE) {dev : Dev} (h : dev.Ok PAGE_SIZE) {pindex : ℕ} {io : Io}
    (hfail : ReadFails PAGE_SIZE dev pindex io) (hrestore : (page_restore PAGE_SIZE dev pindex io).1 = PAGE_SIZE) :
    PageKept dev (ulo_bmp_pindex PAGE_SIZE dev pindex io) ↔ PrevSame PAGE_SIZE dev pindex := by
  obtain ⟨herr, hleft⟩ := ulo_bmp_pindex_fails hP h hfail
  have hpos := restored_pos hP hrestore
  have hbuf : (ulo_bmp_pindex PAGE_SIZE dev pindex io).dev.bmpbuf =
      if pindex - 1 = dev.bmpidx then dev.bmpbuf else pread dev.bmp ((pindex - 1) * PAGE_SIZE) PAGE_SIZE := by
    rw [hleft, ← pread_flat h]
    exact page_restore_page hP h hfail.written hrestore
  rw [PrevSame]
  by_cases hprev : pindex = dev.bmpidx + 1
  · rw [if_pos (by omega)] at hbuf
    exact iff_of_true ⟨herr, by rw [hleft], hbuf⟩ (Or.inl hprev)
  · rw [if_neg (by omega)] at hbuf
    rw [or_iff_right hprev, ← hbuf]
    exact ⟨PageKept.buf, fun hsame => ⟨herr, by rw [hleft], hsame⟩⟩

/-- the array is as it was if the page in memory is -/
theorem page_kept_iff_flat (hP : 0 < PAGE_SIZE) {dev : Dev} (h : dev.Ok PAGE_SIZE) {pindex : ℕ} {io : Io}
    (hfail : ReadFails PAGE_SIZE dev pindex io) :
    PageKept dev (ulo_bmp_pindex PAGE_SIZE dev pindex io) ↔
      (ulo_bmp_pindex PAGE_SIZE dev pindex io).dev.flat PAGE_SIZE = dev.flat PAGE_SIZE := by
  have hok := hfail.ok hP h
  obtain ⟨herr, hleft⟩ := ulo_bmp_pindex_fails hP h hfail
  have hidx : (ulo_bmp_pindex PAGE_SIZE dev pindex io).dev.bmpidx = dev.bmpidx := by rw [hleft]
  constructor
  · intro hkept
    rw [Dev.flat, hidx, hkept.buf, hleft]
    exact pwrite_pwrite h.page le_rfl
  · intro hflat
    refine ⟨herr, hidx, ?_⟩
    have hnew := pread_flat hok dev.bmpidx
    have hold := pread_flat h dev.bmpidx
    rw [if_pos hidx.symm, hflat] at hnew
    rw [if_pos rfl] at hold
    exact hnew.symm.trans hold

/-! ## Sections that may fail -/

def Op.run (PAGE_SIZE : ℕ) (dev : Dev) (io : Io) : Op → Res × List Bool
  | .test pindex bit =>
    let r := uloop_xfer_test PAGE_SIZE dev pindex bit io
    (r.1, [r.2])
  | .set pindex bit => (ulo_xfer_end_set PAGE_SIZE dev pindex bit io, [])

/-- the driver, the sections that have not failed, and the answers of their tests -/
structure St where
  dev : Dev
  done : List Op
  answers : List Bool
deriving DecidableEq, Repr

def St.init (dev : Dev) : St := ⟨dev, [], []⟩

/-- a section and what comes of its I/O; `none` is BUG_ON -/
def io_step (PAGE_SIZE : ℕ) (s : St) (a : Op × Io) : Option St :=
  let r := a.1.run PAGE_SIZE s.dev a.2
  r.1.err.map fun e => if e = 0 then ⟨r.1.dev, s.done ++ [a.1], s.answers ++ r.2⟩ else { s with dev := r.1.dev }

theorem Op.run_done {dev : Dev} {io : Io} {op : Op} (h : (ulo_bmp_pindex PAGE_SIZE dev op.pindex io).err = some 0) :
    (op.run PAGE_SIZE dev io).1.err = some 0 ∧
      ((op.run PAGE_SIZE dev io).1.dev, (op.run PAGE_SIZE dev io).2) =
        op.act (ulo_bmp_pindex PAGE_SIZE dev op.pindex io).dev := by
  cases op with
  | test pindex bit =>
    rw [Op.pindex] at h
    simp only [Op.run, uloop_xfer_test, Op.act, Op.pindex, h, if_true, true_and]
  | set pindex bit =>
    rw [Op.pindex] at h
    simp only [Op.run, ulo_xfer_end_set, Op.act, Op.pindex, h, if_true, true_and]

theorem Op.run_error {dev : Dev} {io : Io} {op : Op} (h : (ulo_bmp_pindex PAGE_SIZE dev op.pindex io).err ≠ some 0) :
    (op.run PAGE_SIZE dev io).1 = ulo_bmp_pindex PAGE_SIZE dev op.pindex io := by
  cases op with
  | test pindex bit => rfl
  | set pindex bit =>
    rw [Op.pindex] at h
    rw [Op.run, ulo_xfer_end_set, Op.pindex]
    exact if_neg h

/-- **Any section**, whatever comes of its I/O: it is done to a driver of the same array; or it fails, and the array is
the same too unless another page could not be read. -/
theorem io_step_cases (hP : 0 < PAGE_SIZE) {s t : St} (hs : s.dev.Ok PAGE_SIZE) {a : Op × Io}
    (h : io_step PAGE_SIZE s a = some t) :
    (∃ dev, dev.Ok PAGE_SIZE ∧ dev.bmpidx = a.1.pindex ∧ dev.bmpsz = s.dev.bmpsz ∧
        dev.flat PAGE_SIZE = s.dev.flat PAGE_SIZE ∧
        t = ⟨(a.1.act dev).1, s.done ++ [a.1], s.answers ++ (a.1.act dev).2⟩) ∨
      (∃ dev, dev.Ok PAGE_SIZE ∧ dev.bmpsz = s.dev.bmpsz ∧ t = { s with dev } ∧
        (dev.flat PAGE_SIZE = s.dev.flat PAGE_SIZE ∨
          ReadFails PAGE_SIZE s.dev a.1.pindex a.2 ∧
            dev = (ulo_bmp_pindex PAGE_SIZE s.dev a.1.pindex a.2).dev)) := by
  have hcases := ulo_bmp_pindex_cases hP hs a.1.pindex a.2
  have hfailed : ∀ e, (ulo_bmp_pindex PAGE_SIZE s.dev a.1.pindex a.2).err = some e → e ≠ 0 →
      t = { s with dev := (ulo_bmp_pindex PAGE_SIZE s.dev a.1.pindex a.2).dev } := by
    intro e herr hne
    have hrun : (a.1.run PAGE_SIZE s.dev a.2).1 = ulo_bmp_pindex PAGE_SIZE s.dev a.1.pindex a.2 :=
      Op.run_error (by rw [herr]; exact fun hzero => hne (Option.some.inj hzero))
    rw [io_step, hrun, herr, Option.map_some, if_neg hne] at h
    exact (Option.some.inj h).symm
  cases hcases with
  | bug err =>
    rw [io_step, Op.run_error (by rw [err]; exact (Option.some_ne_none _).symm), err] at h
    exact absurd h (Option.some_ne_none t).symm
  | made err ok idx size flat =>
    obtain ⟨hrun, hact⟩ := Op.run_done err
    obtain ⟨hdev, hanswers⟩ := Prod.mk.inj hact
    rw [io_step, hrun, hdev, hanswers, Option.map_some, if_pos rfl] at h
    exact Or.inl ⟨_, ok, idx, size, flat, (Option.some.inj h).symm⟩
  | kept kept ok size flat =>
    obtain ⟨e, herr, hne⟩ := kept.err
    exact Or.inr ⟨_, ok, size, hfailed e herr hne, Or.inl flat⟩
  | failed fails err left =>
    obtain ⟨e, herr, hne⟩ := err
    exact Or.inr ⟨_, fails.ok hP hs, by rw [left], hfailed e herr hne, Or.inr ⟨fails, rfl⟩⟩

theorem io_step_inv (hP : 0 < PAGE_SIZE) {bmpsz : ℕ} (s : St) (a : Op × Io) (t : St)
    (hs : Inv PAGE_SIZE bmpsz (s.dev, s.answers)) (h : io_step PAGE_SIZE s a = some t) :
    Inv PAGE_SIZE bmpsz (t.dev, t.answers) := by
  obtain ⟨hok, hsz⟩ := hs
  obtain ⟨dev, hok', -, hsize, -, rfl⟩ | ⟨dev, hok', hsize, rfl, -⟩ := io_step_cases hP hok h
  · exact ⟨(Op.act_ok hok' a.1).1, (Op.act_ok hok' a.1).2.trans (hsize.trans hsz)⟩
  · exact ⟨hok', hsize.trans hsz⟩

/-- the bit is one of the page, and a page that cannot be read leaves the right one in memory -/
def Restored (PAGE_SIZE : ℕ) (s : St) (a : Op × Io) : Prop :=
  a.1.bit < bmp_page_bytes PAGE_SIZE ∧
    (ReadFails PAGE_SIZE s.dev a.1.pindex a.2 →
      (page_restore PAGE_SIZE s.dev a.1.pindex a.2).1 = PAGE_SIZE ∧ PrevSame PAGE_SIZE s.dev a.1.pindex)

/-- the sections that have not failed, and no others, were done to the array -/
def Flat (PAGE_SIZE : ℕ) (file : Bytes) (s : St) : Prop :=
  exec (flat_step PAGE_SIZE) (test_bit file, []) s.done = some (abs PAGE_SIZE (s.dev, s.answers))

theorem io_step_flat (hP : 0 < PAGE_SIZE) {file : Bytes} (s : St) (a : Op × Io) (t : St)
    (hs : s.dev.Ok PAGE_SIZE ∧ Flat PAGE_SIZE file s) (hrestored : Restored PAGE_SIZE s a)
    (h : io_step PAGE_SIZE s a = some t) : t.dev.Ok PAGE_SIZE ∧ Flat PAGE_SIZE file t := by
  obtain ⟨hok, hflat⟩ := hs
  obtain ⟨hbit, hrestored⟩ := hrestored
  obtain ⟨dev, hok', hidx, -, hsame, rfl⟩ | ⟨dev, hok', -, rfl, hsame⟩ := io_step_cases hP hok h
  · refine ⟨(Op.act_ok hok' a.1).1, (exec_append _).2 ⟨_, hflat, (exec_cons _).2 ⟨_, ?_, rfl⟩⟩⟩
    rw [abs, ← hsame]
    exact Op.act_flat hok' hidx hbit s.answers
  · refine ⟨hok', ?_⟩
    suffices hdev : dev.flat PAGE_SIZE = s.dev.flat PAGE_SIZE by
      rw [Flat, abs, hdev]
      exact hflat
    rcases hsame with hsame | ⟨hfail, rfl⟩
    · exact hsame
    · obtain ⟨hread, hprev⟩ := hrestored hfail
      exact (page_kept_iff_flat hP hok hfail).1 ((page_kept_iff hP hok hfail hread).2 hprev)

/-- **The driver is a flat bitmap also when I/O fails**, as long as pages that cannot be read leave the right one in
memory: released the file has the bits that were set by the sections that have not failed. -/
theorem flat_bitmap_io (hP : 0 < PAGE_SIZE) {ctl : Setbmp} {file : Bytes} (hfile : ctl.bmp = some file) {dev : Dev}
    (hset : ulo_ctl_setbmp PAGE_SIZE none ctl = (0, some dev)) {as : List (Op × Io)}
    (hrestored : Along (io_step PAGE_SIZE) (Restored PAGE_SIZE) (.init dev) as) {s : St}
    (hrun : exec (io_step PAGE_SIZE) (.init dev) as = some s) :
    ∃ bits, exec (flat_step PAGE_SIZE) (test_bit file, []) s.done = some (bits, s.answers) ∧
      test_bit (uloop_release PAGE_SIZE s.dev .whole) = bits := by
  obtain ⟨hbmp, hok, hflat⟩ := ulo_ctl_setbmp_ok hP hset
  obtain rfl := Option.some.inj (hfile.symm.trans hbmp)
  have hinit : Flat PAGE_SIZE dev.bmp (.init dev) := by
    rw [Flat, abs, St.init, hflat]
    rfl
  obtain ⟨hok', hdone⟩ := exec_invariant_along (io_step PAGE_SIZE) _ (io_step_flat hP) ⟨hok, hinit⟩ hrestored hrun
  exact ⟨_, hdone, by rw [uloop_release_flat hok']⟩

/-- the first test cannot read its page, and is not done -/
example :
    exec (io_step 1) (.init ⟨[4, 6], 0, [4], 2⟩)
        [(.test 1 2, ⟨.whole, .error 4 fun _ => 0, .whole⟩), (.test 0 2, .success)] =
      some ⟨⟨[4, 6], 0, [4], 2⟩, [.test 0 2], [true]⟩ := by decide

/-! ## When a failed change loses nothing -/

/-- **When a failed change loses nothing.** In any state of the driver, the page in memory survives a read that fails,
if the restoring read does not, exactly when the page before the wanted one is that page or equal to it. -/
theorem restored_iff (hP : 0 < PAGE_SIZE) {ctl : Setbmp} {dev : Dev}
    (hset : ulo_ctl_setbmp PAGE_SIZE none ctl = (0, some dev)) {as : List (Op × Io)} {s : St}
    (hrun : exec (io_step PAGE_SIZE) (.init dev) as = some s) {pindex : ℕ} {io : Io}
    (hfail : ReadFails PAGE_SIZE s.dev pindex io)
    (hrestore : (page_restore PAGE_SIZE s.dev pindex io).1 = PAGE_SIZE) :
    PageKept s.dev (ulo_bmp_pindex PAGE_SIZE s.dev pindex io) ↔ PrevSame PAGE_SIZE s.dev pindex := by
  have hinit : Inv PAGE_SIZE dev.bmpsz ((St.init dev).dev, (St.init dev).answers) :=
    ⟨(ulo_ctl_setbmp_ok hP hset).2.1, rfl⟩
  have hinv := exec_invariant (io_step PAGE_SIZE) (fun s => Inv PAGE_SIZE dev.bmpsz (s.dev, s.answers))
    (io_step_inv hP) hinit hrun
  exact page_kept_iff hP hinv.1 hfail hrestore

/-- no block of the first and the third page of the bitmap is there, and every block of the second is -/
def three_pages (PAGE_SIZE : ℕ) : Bytes :=
  List.replicate PAGE_SIZE 0 ++ List.replicate PAGE_SIZE 255 ++ List.replicate PAGE_SIZE 0

def three_ctl (PAGE_SIZE : ℕ) : Setbmp :=
  ⟨true, some (three_pages PAGE_SIZE), PAGE_SIZE, true, some fun _ => 0, .whole⟩

def three_dev (PAGE_SIZE : ℕ) : Dev := ⟨three_pages PAGE_SIZE, 0, List.replicate PAGE_SIZE 0, 3 * PAGE_SIZE⟩

/-- only the other page cannot be read -/
def read_eio : Io := ⟨.whole, .error 4 fun _ => 0, .whole⟩

theorem length_three_pages (PAGE_SIZE : ℕ) : (three_pages PAGE_SIZE).length = 3 * PAGE_SIZE := by
  simp only [three_pages, List.length_append, List.length_replicate]
  omega

theorem pread_first (PAGE_SIZE : ℕ) :
    pread (three_pages PAGE_SIZE) (0 * PAGE_SIZE) PAGE_SIZE = List.replicate PAGE_SIZE 0 := by
  rw [Nat.zero_mul, pread, List.drop_zero, three_pages, List.append_assoc]
  exact List.take_left' List.length_replicate

theorem pread_second (PAGE_SIZE : ℕ) :
    pread (three_pages PAGE_SIZE) (1 * PAGE_SIZE) PAGE_SIZE = List.replicate PAGE_SIZE 255 := by
  rw [Nat.one_mul, pread, three_pages, List.append_assoc, List.drop_left' List.length_replicate]
  exact List.take_left' List.length_replicate

theorem three_set (hP : 0 < PAGE_SIZE) :
    ulo_ctl_setbmp PAGE_SIZE none (three_ctl PAGE_SIZE) = (0, some (three_dev PAGE_SIZE)) := by
  have hlen := length_three_pages PAGE_SIZE
  have hwhole : ¬ (3 * PAGE_SIZE = 0 ∨ 3 * PAGE_SIZE % PAGE_SIZE ≠ 0) := by
    rw [Nat.mul_mod_left]
    omega
  have hread : kernel_read (three_pages PAGE_SIZE) 0 ((List.range PAGE_SIZE).map fun _ => 0) PAGE_SIZE .whole =
      ((PAGE_SIZE : ℤ), List.replicate PAGE_SIZE 0) := by
    rw [← pread_first PAGE_SIZE, Nat.zero_mul, ← Int.natCast_zero]
    exact read_at_page (by omega) (by rw [List.length_map, List.length_range])
  simp only [ulo_ctl_setbmp, three_ctl, hlen, if_neg hwhole, hread]
  simp [three_dev]

theorem three_dev_ok (hP : 0 < PAGE_SIZE) : (three_dev PAGE_SIZE).Ok PAGE_SIZE :=
  (ulo_ctl_setbmp_ok hP (three_set hP)).2.1

theorem three_inside (hP : 0 < PAGE_SIZE) {pindex : ℕ} (hlt : pindex < 3) :
    pindex < (three_dev PAGE_SIZE).bmpsz / PAGE_SIZE := by
  rw [three_dev, Nat.mul_div_cancel 3 hP]
  exact hlt

/-- a change to the next page -/
theorem restored_iff_next : PageKept (three_dev 4096) (ulo_bmp_pindex 4096 (three_dev 4096) 1 read_eio) := by
  have hP : 0 < 4096 := by decide
  have hrun : exec (io_step 4096) (.init (three_dev 4096)) [] = some (.init (three_dev 4096)) := rfl
  have hfail : ReadFails 4096 (three_dev 4096) 1 read_eio :=
    read_fails_of_error (three_dev_ok hP) (by decide) (three_inside hP (by decide)) rfl rfl
  have hrestore : (page_restore 4096 (three_dev 4096) 1 read_eio).1 = (4096 : ℕ) :=
    page_restore_whole (three_dev_ok hP) (by decide) (three_inside hP (by decide)) rfl
  exact (restored_iff hP (three_set hP) hrun hfail hrestore).2 (Or.inl rfl)

/-- a change to the page after that: in memory is a copy of the second page, but it stands for the first -/
theorem restored_other_page :
    ulo_ctl_setbmp 4096 none (three_ctl 4096) = (0, some (three_dev 4096)) ∧
      ReadFails 4096 (three_dev 4096) 2 read_eio ∧
      (page_restore 4096 (three_dev 4096) 2 read_eio).1 = (4096 : ℕ) ∧
      (ulo_bmp_pindex 4096 (three_dev 4096) 2 read_eio).dev.bmpbuf = List.replicate 4096 255 ∧
      ¬ PageKept (three_dev 4096) (ulo_bmp_pindex 4096 (three_dev 4096) 2 read_eio) := by
  have hP : 0 < 4096 := by decide
  have hok := three_dev_ok hP
  have hfail : ReadFails 4096 (three_dev 4096) 2 read_eio :=
    read_fails_of_error hok (by decide) (three_inside hP (by decide)) rfl rfl
  have hrestore : (page_restore 4096 (three_dev 4096) 2 read_eio).1 = (4096 : ℕ) :=
    page_restore_whole hok (by decide) (three_inside hP (by decide)) rfl
  have hflat : (three_dev 4096).flat 4096 = three_pages 4096 := (ulo_ctl_setbmp_ok hP (three_set hP)).2.2
  have hbuf : (ulo_bmp_pindex 4096 (three_dev 4096) 2 read_eio).dev.bmpbuf = List.replicate 4096 255 := by
    rw [(ulo_bmp_pindex_fails hP hok hfail).2, ← pread_second 4096, ← hflat]
    exact page_restore_page hP hok hfail.written hrestore
  refine ⟨three_set hP, hfail, hrestore, hbuf, fun hkept => ?_⟩
  have hsame : List.replicate 4096 (255 : UInt8) = List.replicate 4096 0 := hbuf.symm.trans hkept.buf
  exact absurd ((List.replicate_right_inj (by decide)).1 hsame) (by decide)

end AufsUtil.Uloop
