/-
The bitmap of the uloop driver (`sample/uloop/drivers/block/uloop.c`).

The file of the bitmap has one bit for each page of the cache, but only one of its own pages is in memory, in bmpbuf.
`ulo_bmp_pindex` changes to another one: the page in memory is written to the file, and the other is read. uloop_xfer
tests a bit, and ulo_xfer_end sets it; both do so under bmpmtx, so that the driver is a sequence of such sections.

- `ulo_bmp_pindex_whole`: a change of the page whose writing and reading succeed.
- `flat_index`: the page and the bit that uloop_xfer computes, as one index.

How a read or a write turns out is an input. A read that ends early or fails leaves in the buffer what it
may. `none` for an error is BUG_ON. Words are little-endian; a position in the file is no overflow, since
i_size is at most 2^63 - 1.
-/
import Mathlib.Tactic
import AufsUtil.Lib.Bitmap

namespace AufsUtil.Uloop

open AufsUtil.CStr AufsUtil.Bitmap

/-! ## Files of the kernel -/

def EIO : ℤ := 5

def EBADF : ℤ := 9

def ENOMEM : ℤ := 12

def EFAULT : ℤ := 14

def EBUSY : ℤ := 16

def EINVAL : ℤ := 22

inductive WriteRes where
  | whole
  /-- fewer bytes than asked for -/
  | short (n : ℕ)
  /-- -(e + 1) -/
  | error (e : ℕ)
deriving DecidableEq, Repr

inductive ReadRes where
  /-- all that there is at this position -/
  | whole
  | short (n : ℕ)
  /-- -(e + 1), with anything in the buffer -/
  | error (e : ℕ) (junk : ℕ → UInt8)

def vfs_write (file buf : Bytes) (sz pos : ℕ) : WriteRes → ℤ × Bytes
  | .whole => (sz, pwrite file pos (buf.take sz))
  | .short n => ((min n (sz - 1) : ℕ), pwrite file pos (buf.take (min n (sz - 1))))
  | .error e => (-(e + 1), file)

/-- the error of a write that returned ret, which is compared as a size_t -/
def write_err (ret : ℤ) (sz : ℕ) : ℤ :=
  if ret = sz then 0 else if (ret % 2 ^ 64).toNat ≤ sz then - EIO else ret

def ulo_write (file buf : Bytes) (sz pos : ℕ) (res : WriteRes) : ℤ × Bytes :=
  let w := vfs_write file buf sz pos res
  (write_err w.1 sz, w.2)

/-- n bytes at most; what it returns, and the buffer -/
def read_at (file : Bytes) (pos : ℤ) (buf : Bytes) (n : ℕ) : ℤ × Bytes :=
  if pos < 0 then (-EINVAL, buf)
  else
    let got := pread file pos.toNat n
    (got.length, got ++ buf.drop got.length)

def kernel_read (file : Bytes) (pos : ℤ) (buf : Bytes) (sz : ℕ) : ReadRes → ℤ × Bytes
  | .whole => read_at file pos buf sz
  | .short n => read_at file pos buf (min n (sz - 1))
  | .error e junk => (-(e + 1), (List.range buf.length).map junk)

/-! ## The page in memory -/

/-- what ulo_dev says of the bitmap, and the file itself -/
structure Dev where
  bmp : Bytes
  bmpidx : ℕ
  bmpbuf : Bytes
  bmpsz : ℕ
deriving DecidableEq, Repr

/-- what is done to the file, and where -/
inductive FileOp where
  | write (pos : ℕ)
  | read (pos : ℤ)
deriving DecidableEq, Repr

/-- how the I/O of one change of the page turns out -/
structure Io where
  write : WriteRes
  read : ReadRes
  restore : ReadRes

def Io.success : Io := ⟨.whole, .whole, .whole⟩

structure Res where
  err : Option ℤ
  dev : Dev
  ops : List FileOp
deriving DecidableEq, Repr

variable (PAGE_SIZE : ℕ)

def ulo_bmp_pindex (dev : Dev) (pindex : ℕ) (io : Io) : Res :=
  if dev.bmpidx = pindex then ⟨some 0, dev, []⟩
  else if dev.bmpsz / PAGE_SIZE < pindex then ⟨some (- EIO), dev, []⟩
  else
    let pos := dev.bmpidx * PAGE_SIZE
    let w := ulo_write dev.bmp dev.bmpbuf PAGE_SIZE pos io.write
    let dev := { dev with bmp := w.2 }
    let ops := [.write pos]
    if w.1 ≠ 0 then ⟨some w.1, dev, ops⟩
    else if dev.bmpsz ≠ dev.bmp.length then ⟨none, dev, ops⟩
    else
      let pos := pindex * PAGE_SIZE
      if dev.bmpsz < pos + PAGE_SIZE then ⟨none, dev, ops⟩
      else
        let r := kernel_read dev.bmp pos dev.bmpbuf PAGE_SIZE io.read
        let dev := { dev with bmpbuf := r.2 }
        let ops := ops ++ [.read pos]
        if r.1 ≠ PAGE_SIZE then
          let err := if 0 ≤ r.1 then - EIO else r.1
          -- restore
          let e2 := kernel_read dev.bmp ((pos : ℤ) - PAGE_SIZE) dev.bmpbuf PAGE_SIZE io.restore
          let dev := { dev with bmpbuf := e2.2 }
          ⟨some (if e2.1 ≠ PAGE_SIZE then - EIO else err), dev, ops ++ [.read ((pos : ℤ) - PAGE_SIZE)]⟩
        else ⟨some 0, { dev with bmpidx := pindex }, ops⟩

/-- the section of uloop_xfer; the bit counts as set if there is an error -/
def uloop_xfer_test (dev : Dev) (pindex bit : ℕ) (io : Io) : Res × Bool :=
  let r := ulo_bmp_pindex PAGE_SIZE dev pindex io
  (r, if r.err = some 0 then test_bit r.dev.bmpbuf bit else true)

/-- the section of ulo_xfer_end -/
def ulo_xfer_end_set (dev : Dev) (pindex bit : ℕ) (io : Io) : Res :=
  let r := ulo_bmp_pindex PAGE_SIZE dev pindex io
  if r.err = some 0 then { r with dev := { r.dev with bmpbuf := set_bit r.dev.bmpbuf bit } } else r

/-! ## Its place in the bitmap -/

def BITS_PER_BYTE : ℕ := 8

def bmp_page_bytes : ℕ := PAGE_SIZE * BITS_PER_BYTE

/-- pindex of uloop_xfer, for a page of the cache -/
def pindex_of (loff : ℕ) : ℕ := loff / bmp_page_bytes PAGE_SIZE

/-- bit of uloop_xfer, an int -/
def bit_of (loff : ℕ) : ℤ := toInt (loff % bmp_page_bytes PAGE_SIZE)

/-! ## The bitmap is set and released -/

/-- the argument of ULOCTL_SETBMP and what the system makes of it: is it copied; the file of its descriptor; its page
size; is the file open for both; a free page, with what it happens to hold -/
structure Setbmp where
  copied : Bool
  bmp : Option Bytes
  pagesize : ℤ
  rw : Bool
  free_page : Option (ℕ → UInt8)
  read : ReadRes

/-- `none` is a device without bitmap -/
def ulo_ctl_setbmp (dev : Option Dev) (ctl : Setbmp) : ℤ × Option Dev :=
  if dev.isSome then (-EBUSY, dev)
  else if !ctl.copied then (-EFAULT, none)
  else
    match ctl.bmp with
    | none => (-EINVAL, none)
    | some bmp =>
      if ctl.pagesize ≠ PAGE_SIZE then (-EINVAL, none)
      else if !ctl.rw then (-EBADF, none)
      else if bmp.length = 0 ∨ bmp.length % PAGE_SIZE ≠ 0 then (-EBADF, none)
      else
        match ctl.free_page with
        | none => (-ENOMEM, none)
        | some junk =>
          let r := kernel_read bmp 0 ((List.range PAGE_SIZE).map junk) PAGE_SIZE ctl.read
          if r.1 = PAGE_SIZE then (0, some ⟨bmp, 0, r.2, bmp.length⟩)
          else (if 0 ≤ r.1 then - EIO else r.1, none)

/-- the file after LOOP_CLR_FD; an error of the write is ignored -/
def uloop_release (dev : Dev) (write : WriteRes) : Bytes :=
  (ulo_write dev.bmp dev.bmpbuf PAGE_SIZE (dev.bmpidx * PAGE_SIZE) write).2

/-! ## Successful I/O -/

variable {PAGE_SIZE : ℕ}

theorem write_err_eq_zero {ret : ℤ} {sz : ℕ} : write_err ret sz = 0 ↔ ret = sz := by
  unfold write_err
  split_ifs with heq hle
  · exact iff_of_true rfl heq
  · exact iff_of_false (by decide) heq
  · refine iff_of_false (fun hzero => hle ?_) heq
    rw [hzero]
    exact Nat.zero_le sz

theorem ulo_write_whole (file : Bytes) {buf : Bytes} (pos : ℕ) (h : buf.length = PAGE_SIZE) :
    ulo_write file buf PAGE_SIZE pos .whole = (0, pwrite file pos buf) := by
  rw [ulo_write, vfs_write, List.take_of_length_le h.le, write_err_eq_zero.2 rfl]

/-- a page inside of the file is read as a whole -/
theorem read_at_page {file buf : Bytes} {pos : ℕ} (h : pos + PAGE_SIZE ≤ file.length) (hbuf : buf.length = PAGE_SIZE) :
    read_at file pos buf PAGE_SIZE = ((PAGE_SIZE : ℤ), pread file pos PAGE_SIZE) := by
  have hlen := length_pread h
  rw [read_at, if_neg (by omega), Int.toNat_natCast]
  simp only [hlen]
  rw [List.drop_of_length_le hbuf.le, List.append_nil]

/-- a read that returns a whole page has read the page at this position -/
theorem kernel_read_page (hP : 0 < PAGE_SIZE) {file buf : Bytes} {pos : ℕ} {res : ReadRes}
    (hbuf : buf.length = PAGE_SIZE) (h : (kernel_read file pos buf PAGE_SIZE res).1 = PAGE_SIZE) :
    (kernel_read file pos buf PAGE_SIZE res).2 = pread file pos PAGE_SIZE := by
  cases res with
  | whole =>
    rw [kernel_read, read_at, if_neg (by omega), Int.toNat_natCast] at h ⊢
    have hlen : (pread file pos PAGE_SIZE).length = PAGE_SIZE := Int.ofNat_inj.1 h
    simp only [hlen]
    rw [List.drop_of_length_le hbuf.le, List.append_nil]
  | short n =>
    rw [kernel_read, read_at, if_neg (by omega)] at h
    have hshort : (pread file pos (min n (PAGE_SIZE - 1))).length < PAGE_SIZE := by
      rw [pread, List.length_take]
      omega
    simp only [Int.toNat_natCast] at h
    omega
  | error e junk =>
    simp only [kernel_read] at h
    omega

/-- a write that returns 0 has written the page -/
theorem ulo_write_zero (hP : 0 < PAGE_SIZE) {file buf : Bytes} {pos : ℕ} {res : WriteRes} (h : buf.length = PAGE_SIZE)
    (hzero : (ulo_write file buf PAGE_SIZE pos res).1 = 0) :
    (ulo_write file buf PAGE_SIZE pos res).2 = pwrite file pos buf := by
  have hret : (vfs_write file buf PAGE_SIZE pos res).1 = PAGE_SIZE := write_err_eq_zero.1 hzero
  cases res with
  | whole => rw [ulo_write_whole file pos h]
  | short n =>
    have hshort : ((min n (PAGE_SIZE - 1) : ℕ) : ℤ) = PAGE_SIZE := hret
    omega
  | error e =>
    have hneg : (-(e + 1) : ℤ) = PAGE_SIZE := hret
    omega

/-- the bitmap is whole pages, one of which is in memory -/
structure Dev.Ok (PAGE_SIZE : ℕ) (dev : Dev) : Prop where
  size : dev.bmp.length = dev.bmpsz
  whole : PAGE_SIZE ∣ dev.bmpsz
  idx : dev.bmpidx < dev.bmpsz / PAGE_SIZE
  buf : dev.bmpbuf.length = PAGE_SIZE

theorem page_inside {n i : ℕ} (h : i < n / PAGE_SIZE) : i * PAGE_SIZE + PAGE_SIZE ≤ n :=
  calc i * PAGE_SIZE + PAGE_SIZE = (i + 1) * PAGE_SIZE := (Nat.succ_mul i PAGE_SIZE).symm
    _ ≤ n / PAGE_SIZE * PAGE_SIZE := Nat.mul_le_mul_right PAGE_SIZE h
    _ ≤ n := Nat.div_mul_le_self n PAGE_SIZE

theorem Dev.Ok.page {dev : Dev} (h : dev.Ok PAGE_SIZE) :
    dev.bmpidx * PAGE_SIZE + dev.bmpbuf.length ≤ dev.bmp.length := by
  rw [h.buf, h.size]
  exact page_inside h.idx

/-- **A change of the page**: what was in memory is in the file, and the other page is in memory. -/
theorem ulo_bmp_pindex_whole {dev : Dev} (h : dev.Ok PAGE_SIZE) {pindex : ℕ} (hin : pindex < dev.bmpsz / PAGE_SIZE)
    (hne : dev.bmpidx ≠ pindex) :
    ulo_bmp_pindex PAGE_SIZE dev pindex .success =
      let bmp := pwrite dev.bmp (dev.bmpidx * PAGE_SIZE) dev.bmpbuf
      ⟨some 0, ⟨bmp, pindex, pread bmp (pindex * PAGE_SIZE) PAGE_SIZE, dev.bmpsz⟩,
        [.write (dev.bmpidx * PAGE_SIZE), .read (pindex * PAGE_SIZE : ℕ)]⟩ := by
  have hnew := page_inside hin
  have hbmp : (pwrite dev.bmp (dev.bmpidx * PAGE_SIZE) dev.bmpbuf).length = dev.bmpsz :=
    (length_pwrite h.page).trans h.size
  unfold ulo_bmp_pindex
  rw [if_neg hne, if_neg (not_lt.2 hin.le)]
  simp only [Io.success, ulo_write_whole dev.bmp _ h.buf, kernel_read]
  rw [if_neg (not_not.2 rfl), hbmp, if_neg (not_not.2 rfl), if_neg (not_lt.2 hnew),
    read_at_page (by rw [hbmp]; exact hnew) h.buf]
  exact if_neg (not_not.2 rfl)

/-- a page inside of the bitmap is neither refused nor found to be outside, however the I/O turns out -/
theorem ulo_bmp_pindex_inside (hP : 0 < PAGE_SIZE) {dev : Dev} (h : dev.Ok PAGE_SIZE) {pindex : ℕ}
    (hin : pindex < dev.bmpsz / PAGE_SIZE) (io : Io) :
    (ulo_bmp_pindex PAGE_SIZE dev pindex io).err ≠ none ∧
      ((ulo_bmp_pindex PAGE_SIZE dev pindex io).ops = [] → (ulo_bmp_pindex PAGE_SIZE dev pindex io).err = some 0) := by
  unfold ulo_bmp_pindex
  by_cases heq : dev.bmpidx = pindex
  · rw [if_pos heq]
    exact ⟨Option.some_ne_none _, fun _ => rfl⟩
  · rw [if_neg heq, if_neg (not_lt.2 hin.le)]
    dsimp only
    by_cases hwrite : (ulo_write dev.bmp dev.bmpbuf PAGE_SIZE (dev.bmpidx * PAGE_SIZE) io.write).1 = 0
    · have hbmp := ulo_write_zero hP h.buf hwrite
      rw [if_neg (not_not.2 hwrite), hbmp, length_pwrite h.page, h.size, if_neg (not_not.2 rfl),
        if_neg (not_lt.2 (page_inside hin))]
      -- the file has been touched, and there is an error or 0
      split_ifs <;> simp
    · rw [if_pos hwrite]
      exact ⟨Option.some_ne_none _, fun hops => absurd hops (List.cons_ne_nil _ _)⟩

/-- a page behind the end by more than one is refused -/
theorem ulo_bmp_pindex_refused {dev : Dev} (h : dev.Ok PAGE_SIZE) {pindex : ℕ} (hout : dev.bmpsz / PAGE_SIZE < pindex)
    (io : Io) : ulo_bmp_pindex PAGE_SIZE dev pindex io = ⟨some (- EIO), dev, []⟩ := by
  have hne : dev.bmpidx ≠ pindex := by
    have := h.idx
    omega
  rw [ulo_bmp_pindex, if_neg hne, if_pos hout]

/-- the page just behind the end is not: the page in memory is written, and then there is BUG_ON -/
theorem ulo_bmp_pindex_end (hP : 0 < PAGE_SIZE) {dev : Dev} (h : dev.Ok PAGE_SIZE) (io : Io) :
    (ulo_bmp_pindex PAGE_SIZE dev (dev.bmpsz / PAGE_SIZE) io).ops = [.write (dev.bmpidx * PAGE_SIZE)] ∧
      (io.write = .whole → (ulo_bmp_pindex PAGE_SIZE dev (dev.bmpsz / PAGE_SIZE) io).err = none) := by
  have hend : dev.bmpsz < dev.bmpsz / PAGE_SIZE * PAGE_SIZE + PAGE_SIZE := by
    rw [Nat.div_mul_cancel h.whole]
    omega
  unfold ulo_bmp_pindex
  rw [if_neg h.idx.ne, if_neg (lt_irrefl _)]
  dsimp only
  split_ifs with hwrite hsize
  · refine ⟨rfl, fun hwhole => ?_⟩
    rw [hwhole, ulo_write_whole _ _ h.buf] at hwrite
    exact absurd rfl hwrite
  · exact ⟨rfl, fun _ => rfl⟩
  · exact ⟨rfl, fun _ => rfl⟩

/-- the page and the bit as one index, if the bit is an int -/
theorem flat_index {loff : ℕ} (h : loff % bmp_page_bytes PAGE_SIZE < 2 ^ 31) :
    pindex_of PAGE_SIZE loff * bmp_page_bytes PAGE_SIZE + bit_of PAGE_SIZE loff = loff := by
  have hdiv := Nat.div_add_mod' loff (bmp_page_bytes PAGE_SIZE)
  rw [bit_of, toInt_of_lt (by omega) (by exact_mod_cast h), pindex_of]
  exact_mod_cast hdiv

end AufsUtil.Uloop
