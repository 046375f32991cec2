/-
The bitmap of uloop as one array of bits.

While a page is in memory the file is stale there. The array that the driver stands for is the file with this page in
its place (`Dev.flat`); a change of the page moves bytes between the two, and leaves the array as it is.

- `ulo_bmp_pindex_flat`: a change of the page leaves the array as it is.
- `step_spec`: a section of the driver is a test or an update of the array.
- `flat_bitmap`: from ulo_ctl_setbmp over any sequence of sections to uloop_release.

Every read and write is taken to succeed. The sections are those of any number of requests, in the order in which they
get bmpmtx.
-/
import Mathlib.Tactic
import AufsUtil.Lib.Runs
import AufsUtil.Uloop.Driver

namespace AufsUtil.Uloop

open AufsUtil.CStr AufsUtil.Bitmap AufsUtil.Runs

/-! ## The array -/

/-- the file with the page in memory in its place -/
def Dev.flat (PAGE_SIZE : ℕ) (dev : Dev) : Bytes := pwrite dev.bmp (dev.bmpidx * PAGE_SIZE) dev.bmpbuf

variable {PAGE_SIZE : ℕ}

theorem Dev.Ok.length_flat {dev : Dev} (h : dev.Ok PAGE_SIZE) : (dev.flat PAGE_SIZE).length = dev.bmpsz := by
  rw [Dev.flat, length_pwrite h.page, h.size]

/-- **A change of the page** leaves the array as it is. -/
theorem ulo_bmp_pindex_flat {dev : Dev} (h : dev.Ok PAGE_SIZE) {pindex : ℕ} (hin : pindex < dev.bmpsz / PAGE_SIZE) :
    ∃ dev' ops, ulo_bmp_pindex PAGE_SIZE dev pindex .success = ⟨some 0, dev', ops⟩ ∧ dev'.Ok PAGE_SIZE ∧
      dev'.bmpidx = pindex ∧ dev'.bmpsz = dev.bmpsz ∧ dev'.flat PAGE_SIZE = dev.flat PAGE_SIZE := by
  by_cases heq : dev.bmpidx = pindex
  · refine ⟨dev, [], ?_, h, heq, rfl, rfl⟩
    rw [ulo_bmp_pindex, if_pos heq]
  · have hsize : (pwrite dev.bmp (dev.bmpidx * PAGE_SIZE) dev.bmpbuf).length = dev.bmpsz := h.length_flat
    have hpage : pindex * PAGE_SIZE + PAGE_SIZE ≤ (pwrite dev.bmp (dev.bmpidx * PAGE_SIZE) dev.bmpbuf).length := by
      rw [hsize]
      exact page_inside hin
    refine ⟨_, _, ulo_bmp_pindex_whole h hin heq, ⟨hsize, h.whole, hin, length_pread hpage⟩, rfl, rfl, ?_⟩
    exact pwrite_pread hpage

/-- the first bit of a page -/
theorem first_bit (i : ℕ) : i * bmp_page_bytes PAGE_SIZE = 8 * (i * PAGE_SIZE) := by
  rw [bmp_page_bytes, BITS_PER_BYTE]
  ring

/-- a bit in memory is the bit of the array -/
theorem Dev.Ok.test_bit_flat {dev : Dev} (h : dev.Ok PAGE_SIZE) {bit : ℕ} (hbit : bit < bmp_page_bytes PAGE_SIZE) :
    test_bit (dev.flat PAGE_SIZE) (dev.bmpidx * bmp_page_bytes PAGE_SIZE + bit) = test_bit dev.bmpbuf bit := by
  rw [bmp_page_bytes, BITS_PER_BYTE] at hbit
  rw [first_bit, Dev.flat, test_bit_pwrite h.page (by rw [h.buf]; omega)]

/-- a bit that is set in memory is set in the array -/
theorem Dev.Ok.flat_set_bit {dev : Dev} (h : dev.Ok PAGE_SIZE) {bit : ℕ} (hbit : bit < bmp_page_bytes PAGE_SIZE) :
    test_bit ({ dev with bmpbuf := set_bit dev.bmpbuf bit }.flat PAGE_SIZE) =
      Function.update (test_bit (dev.flat PAGE_SIZE)) (dev.bmpidx * bmp_page_bytes PAGE_SIZE + bit) true := by
  rw [bmp_page_bytes, BITS_PER_BYTE] at hbit
  have hlt : bit < 8 * dev.bmpbuf.length := by
    rw [h.buf]
    omega
  have hpage := h.page
  have hflat : { dev with bmpbuf := set_bit dev.bmpbuf bit }.flat PAGE_SIZE =
      set_bit (dev.flat PAGE_SIZE) (8 * (dev.bmpidx * PAGE_SIZE) + bit) := set_bit_pwrite hpage hlt
  rw [hflat, first_bit, test_bit_set_bit]
  rw [h.length_flat, ← h.size]
  omega

/-! ## The sections -/

inductive Op where
  | test (pindex bit : ℕ)
  | set (pindex bit : ℕ)
deriving DecidableEq, Repr

def Op.pindex : Op → ℕ
  | .test pindex _ | .set pindex _ => pindex

def Op.bit : Op → ℕ
  | .test _ bit | .set _ bit => bit

/-- what is done to the page in memory, and the answer -/
def Op.act (dev : Dev) : Op → Dev × List Bool
  | .test _ bit => (dev, [test_bit dev.bmpbuf bit])
  | .set _ bit => ({ dev with bmpbuf := set_bit dev.bmpbuf bit }, [])

/-- the page and the bit are inside of a bitmap of this size -/
def Op.Inside (PAGE_SIZE bmpsz : ℕ) : Op → Prop
  | .test pindex bit | .set pindex bit => pindex < bmpsz / PAGE_SIZE ∧ bit < bmp_page_bytes PAGE_SIZE

/-- a section of the driver; the answers of the tests so far -/
def step (PAGE_SIZE : ℕ) (s : Dev × List Bool) : Op → Option (Dev × List Bool)
  | .test pindex bit =>
    let r := uloop_xfer_test PAGE_SIZE s.1 pindex bit .success
    if r.1.err = some 0 then some (r.1.dev, s.2 ++ [r.2]) else none
  | .set pindex bit =>
    let r := ulo_xfer_end_set PAGE_SIZE s.1 pindex bit .success
    if r.err = some 0 then some (r.dev, s.2) else none

/-- the same on an array of bits -/
def flat_step (PAGE_SIZE : ℕ) (s : (ℕ → Bool) × List Bool) : Op → Option ((ℕ → Bool) × List Bool)
  | .test pindex bit => some (s.1, s.2 ++ [s.1 (pindex * bmp_page_bytes PAGE_SIZE + bit)])
  | .set pindex bit => some (Function.update s.1 (pindex * bmp_page_bytes PAGE_SIZE + bit) true, s.2)

/-- the array of a driver -/
def abs (PAGE_SIZE : ℕ) (s : Dev × List Bool) : (ℕ → Bool) × List Bool := (test_bit (s.1.flat PAGE_SIZE), s.2)

/-- what all sections keep: the pages, and the size of the bitmap -/
def Inv (PAGE_SIZE bmpsz : ℕ) (s : Dev × List Bool) : Prop := s.1.Ok PAGE_SIZE ∧ s.1.bmpsz = bmpsz

theorem Op.act_ok {dev : Dev} (h : dev.Ok PAGE_SIZE) (op : Op) :
    (op.act dev).1.Ok PAGE_SIZE ∧ (op.act dev).1.bmpsz = dev.bmpsz := by
  cases op with
  | test pindex bit => exact ⟨h, rfl⟩
  | set pindex bit => exact ⟨⟨h.size, h.whole, h.idx, (length_set_bit _ _).trans h.buf⟩, rfl⟩

/-- what is done to the right page is done to the array -/
theorem Op.act_flat {dev : Dev} (h : dev.Ok PAGE_SIZE) {op : Op} (hidx : dev.bmpidx = op.pindex)
    (hbit : op.bit < bmp_page_bytes PAGE_SIZE) (answers : List Bool) :
    flat_step PAGE_SIZE (abs PAGE_SIZE (dev, answers)) op =
      some (abs PAGE_SIZE ((op.act dev).1, answers ++ (op.act dev).2)) := by
  cases op with
  | test pindex bit =>
    obtain rfl : dev.bmpidx = pindex := hidx
    rw [Op.bit] at hbit
    simp only [flat_step, abs, Op.act, h.test_bit_flat hbit]
  | set pindex bit =>
    obtain rfl : dev.bmpidx = pindex := hidx
    rw [Op.bit] at hbit
    simp only [flat_step, abs, Op.act, h.flat_set_bit hbit, List.append_nil]

/-- **A section of the driver** is the same on the array. -/
theorem step_spec {bmpsz : ℕ} {s : Dev × List Bool} {op : Op} (hop : op.Inside PAGE_SIZE bmpsz)
    (hs : Inv PAGE_SIZE bmpsz s) :
    ∃ t, step PAGE_SIZE s op = some t ∧ Inv PAGE_SIZE bmpsz t ∧
      flat_step PAGE_SIZE (abs PAGE_SIZE s) op = some (abs PAGE_SIZE t) := by
  obtain ⟨hok, rfl⟩ := hs
  have hin : op.pindex < s.1.bmpsz / PAGE_SIZE ∧ op.bit < bmp_page_bytes PAGE_SIZE := by cases op <;> exact hop
  obtain ⟨dev', ops, hres, hok', hidx, hsz, hflat⟩ := ulo_bmp_pindex_flat hok hin.1
  obtain ⟨hact, hsize⟩ := Op.act_ok hok' op
  have habs := Op.act_flat hok' hidx hin.2 s.2
  rw [abs, hflat] at habs
  refine ⟨((op.act dev').1, s.2 ++ (op.act dev').2), ?_, ⟨hact, hsize.trans hsz⟩, habs⟩
  cases op with
  | test pindex bit =>
    rw [Op.pindex] at hres
    simp only [step, uloop_xfer_test, hres, Op.act, if_true]
  | set pindex bit =>
    rw [Op.pindex] at hres
    simp only [step, ulo_xfer_end_set, hres, Op.act, List.append_nil, if_true]

theorem step_inv {bmpsz : ℕ} (s : Dev × List Bool) (op : Op) (t : Dev × List Bool) (hop : op.Inside PAGE_SIZE bmpsz)
    (hs : Inv PAGE_SIZE bmpsz s) (h : step PAGE_SIZE s op = some t) : Inv PAGE_SIZE bmpsz t := by
  obtain ⟨t', hstep, hinv, -⟩ := step_spec hop hs
  obtain rfl := Option.some.inj (hstep.symm.trans h)
  exact hinv

theorem step_refines {bmpsz : ℕ} (s : Dev × List Bool) (op : Op) (hop : op.Inside PAGE_SIZE bmpsz)
    (hs : Inv PAGE_SIZE bmpsz s) :
    (step PAGE_SIZE s op).map (abs PAGE_SIZE) = flat_step PAGE_SIZE (abs PAGE_SIZE s) op := by
  obtain ⟨t, hstep, -, hflat⟩ := step_spec hop hs
  rw [hstep, hflat, Option.map_some]

/-! ## From the first page to the last write -/

/-- the bitmap is set: it is whole pages, and the first is read -/
theorem ulo_ctl_setbmp_ok (hP : 0 < PAGE_SIZE) {ctl : Setbmp} {dev : Dev}
    (h : ulo_ctl_setbmp PAGE_SIZE none ctl = (0, some dev)) :
    ctl.bmp = some dev.bmp ∧ dev.Ok PAGE_SIZE ∧ dev.flat PAGE_SIZE = dev.bmp := by
  have hnone : ∀ e : ℤ, ((e, none) : ℤ × Option Dev) ≠ (0, some dev) := fun e he => by cases (Prod.mk.inj he).2
  unfold ulo_ctl_setbmp at h
  rw [if_neg (by simp)] at h
  cases hbmp : ctl.bmp with
  | none =>
    simp only [hbmp] at h
    split_ifs at h <;> exact absurd h (hnone _)
  | some bmp =>
    cases hpage : ctl.free_page with
    | none =>
      simp only [hbmp, hpage] at h
      split_ifs at h <;> exact absurd h (hnone _)
    | some junk =>
      simp only [hbmp, hpage] at h
      split_ifs at h with hcopied hsize hrw hwhole hread
      any_goals exact absurd h (hnone _)
      obtain rfl := Option.some.inj (Prod.mk.inj h).2
      push Not at hwhole
      obtain ⟨hpos, hmod⟩ := hwhole
      have hdvd : PAGE_SIZE ∣ bmp.length := Nat.dvd_of_mod_eq_zero hmod
      have hle : PAGE_SIZE ≤ bmp.length := Nat.le_of_dvd (Nat.pos_of_ne_zero hpos) hdvd
      rw [← Int.natCast_zero] at hread
      have hfirst := kernel_read_page hP (by rw [List.length_map, List.length_range]) hread
      rw [Int.natCast_zero] at hfirst
      refine ⟨rfl, ⟨rfl, hdvd, Nat.div_pos hle hP, ?_⟩, ?_⟩
      · rw [hfirst, length_pread (by omega)]
      · simp only [Dev.flat, hfirst, Nat.zero_mul]
        exact pwrite_pread (by omega)

theorem uloop_release_flat {dev : Dev} (h : dev.Ok PAGE_SIZE) :
    uloop_release PAGE_SIZE dev .whole = dev.flat PAGE_SIZE := by
  rw [uloop_release, ulo_write_whole dev.bmp _ h.buf, Dev.flat]

/-- every sequence of updates of an array is possible -/
theorem exec_flat (PAGE_SIZE : ℕ) (s : (ℕ → Bool) × List Bool) (ops : List Op) :
    ∃ t, exec (flat_step PAGE_SIZE) s ops = some t := by
  induction ops generalizing s with
  | nil => exact ⟨s, rfl⟩
  | cons op ops ih =>
    obtain ⟨t, ht⟩ : ∃ t, flat_step PAGE_SIZE s op = some t := by cases op <;> exact ⟨_, rfl⟩
    obtain ⟨u, hu⟩ := ih t
    exact ⟨u, (exec_cons _).2 ⟨t, ht, hu⟩⟩

/-- **The driver is a flat bitmap.** The tests answer what an array of bits does that was made of the file, and released
the file is this array. -/
theorem flat_bitmap (hP : 0 < PAGE_SIZE) {ctl : Setbmp} {file : Bytes} (hfile : ctl.bmp = some file) {dev : Dev}
    (hset : ulo_ctl_setbmp PAGE_SIZE none ctl = (0, some dev)) {ops : List Op}
    (hops : ∀ op ∈ ops, op.Inside PAGE_SIZE file.length) :
    ∃ dev' bits answers, exec (step PAGE_SIZE) (dev, []) ops = some (dev', answers) ∧
      exec (flat_step PAGE_SIZE) (test_bit file, []) ops = some (bits, answers) ∧
      (uloop_release PAGE_SIZE dev' .whole).length = file.length ∧
      test_bit (uloop_release PAGE_SIZE dev' .whole) = bits := by
  obtain ⟨hbmp, hok, hflat⟩ := ulo_ctl_setbmp_ok hP hset
  obtain rfl := Option.some.inj (hfile.symm.trans hbmp)
  have hinv : Inv PAGE_SIZE dev.bmp.length (dev, []) := ⟨hok, hok.size.symm⟩
  have hmap := exec_map (step PAGE_SIZE) (flat_step PAGE_SIZE) (abs PAGE_SIZE) _ _ step_inv step_refines hops hinv
  obtain ⟨⟨bits, answers⟩, hbits⟩ := exec_flat PAGE_SIZE (test_bit dev.bmp, []) ops
  rw [abs, hflat, hbits] at hmap
  obtain ⟨⟨dev', answers'⟩, hrun, habs⟩ := Option.map_eq_some_iff.1 hmap
  rw [abs, Prod.mk.injEq] at habs
  obtain ⟨rfl, rfl⟩ := habs
  obtain ⟨hok', hsz'⟩ := exec_invariant_of (step PAGE_SIZE) _ _ step_inv hops hinv hrun
  refine ⟨dev', _, answers', hrun, hbits, ?_, ?_⟩
  · rw [uloop_release_flat hok', hok'.length_flat, hsz']
  · rw [uloop_release_flat hok']

/-- a file of two pages of one byte -/
theorem flat_bitmap_two : ∃ dev dev' bits,
    ulo_ctl_setbmp 1 none ⟨true, some [0, 6], 1, true, some fun _ => 0, .whole⟩ = (0, some dev) ∧
    exec (step 1) (dev, []) [.test 1 2, .set 0 7, .test 1 3, .test 0 7] = some (dev', [true, false, true]) ∧
    test_bit (uloop_release 1 dev' .whole) = bits := by
  obtain ⟨dev, hset⟩ : ∃ dev,
      ulo_ctl_setbmp 1 none ⟨true, some [0, 6], 1, true, some fun _ => 0, .whole⟩ = (0, some dev) := ⟨_, rfl⟩
  have hops : ∀ op ∈ [Op.test 1 2, .set 0 7, .test 1 3, .test 0 7], op.Inside 1 ([0, 6] : Bytes).length := by
    simp [Op.Inside, bmp_page_bytes, BITS_PER_BYTE]
  obtain ⟨dev', bits, answers, hrun, -, -, hbits⟩ := flat_bitmap Nat.one_pos rfl hset hops
  obtain rfl := Option.some.inj (Prod.mk.inj hset).2
  obtain ⟨-, rfl⟩ := Prod.mk.inj (Option.some.inj hrun)
  exact ⟨_, dev', bits, hset, hrun, hbits⟩

end AufsUtil.Uloop
