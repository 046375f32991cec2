/-
The cache and the bitmap of uloop fit together: a page whose bit is set is in the cache.

Nothing but the data of the image is ever written into the cache, so that a page that is there stays. A request gets
into SNDRES only after store has filled its page, a transfer sets the bit of its page only after it has found its own
request there, and what is in the file of the bitmap was in the array before.

- `test_section`, `set_section`: the sections of the driver as operations of the array of bits (Flat), whatever comes of
  the I/O.
- `step_inv`: what all steps keep (`Inv`).
- `bitmap_sound`: every bit, in memory and in the file, is one of a page in the cache, at any time.
- `reads_image`: a transfer that returns 0 has read the image.
-/
import Mathlib.Tactic
import AufsUtil.Uloop.Requests

namespace AufsUtil.Uloop.Requests

open AufsUtil.CStr AufsUtil.Bitmap AufsUtil.Runs

variable {img : Image} {s t : Sys}

/-! ## The bitmap -/

/-- a page of the bitmap that cannot be read leaves the right one in memory -/
def Restores (P : ℕ) (dev : Dev) (pindex : ℕ) (io : Io) : Prop :=
  ReadFails P dev pindex io → (page_restore P dev pindex io).1 = P ∧ PrevSame P dev pindex

/-- the file is left alone, or the page in memory is written to it, perhaps in part -/
theorem ulo_bmp_pindex_file (P : ℕ) (dev : Dev) (pindex : ℕ) (io : Io) :
    (ulo_bmp_pindex P dev pindex io).dev.bmp = dev.bmp ∨
      (ulo_bmp_pindex P dev pindex io).dev.bmp = (page_write P dev io).2 := by
  unfold ulo_bmp_pindex
  by_cases heq : dev.bmpidx = pindex
  · rw [if_pos heq]
    exact Or.inl rfl
  rw [if_neg heq]
  by_cases hfar : dev.bmpsz / P < pindex
  · rw [if_pos hfar]
    exact Or.inl rfl
  rw [if_neg hfar]
  dsimp only
  rw [← page_write, ← page_read, ← page_restore]
  refine Or.inr ?_
  repeat' split
  all_goals rfl

/-- every byte of a file to which the page in memory is written is one of the file or one of the array -/
theorem getElem?_page_write {P : ℕ} {dev : Dev} (h : dev.Ok P) (io : Io) (i : ℕ) :
    (page_write P dev io).2[i]? = dev.bmp[i]? ∨ (page_write P dev io).2[i]? = (dev.flat P)[i]? := by
  have hpage := h.page
  have hpart : ∀ n, (pwrite dev.bmp (dev.bmpidx * P) (dev.bmpbuf.take n))[i]? = dev.bmp[i]? ∨
      (pwrite dev.bmp (dev.bmpidx * P) (dev.bmpbuf.take n))[i]? = (dev.flat P)[i]? := by
    intro n
    have hlen : (dev.bmpbuf.take n).length = min n dev.bmpbuf.length := List.length_take
    rw [Dev.flat, getElem?_pwrite hpage, getElem?_pwrite (by omega), hlen]
    by_cases hi : dev.bmpidx * P ≤ i ∧ i < dev.bmpidx * P + min n dev.bmpbuf.length
    · refine Or.inr ?_
      rw [if_neg (by omega), if_pos hi.2, if_neg (by omega), if_pos (by omega), List.getElem?_take, if_pos (by omega)]
    · refine Or.inl ?_
      split_ifs with h1 h2
      · rfl
      · omega
      · rfl
  rw [page_write, ulo_write]
  cases io.write with
  | whole => exact hpart P
  | short n => exact hpart _
  | error e => exact Or.inl rfl

theorem test_bit_congr {b d : Bytes} {n : ℕ} (h : b[n / 8]? = d[n / 8]?) : test_bit b n = test_bit d n := by
  rw [test_bit, test_bit, List.getD_eq_getElem?_getD, List.getD_eq_getElem?_getD, h]

/-- a bit of the file after a change of the page is one of the file before, or one of the array -/
theorem test_bit_file {P : ℕ} {dev : Dev} (h : dev.Ok P) (pindex : ℕ) (io : Io) {n : ℕ}
    (hset : test_bit (ulo_bmp_pindex P dev pindex io).dev.bmp n = true) :
    test_bit dev.bmp n = true ∨ test_bit (dev.flat P) n = true := by
  rcases ulo_bmp_pindex_file P dev pindex io with hsame | hwritten
  · exact Or.inl (hsame ▸ hset)
  · rw [hwritten] at hset
    rcases getElem?_page_write h io (n / 8) with hfile | hflat
    · exact Or.inl (test_bit_congr hfile ▸ hset)
    · exact Or.inr (test_bit_congr hflat ▸ hset)

/-- the place of the bit of a page of the cache -/
theorem bit_eq (img : Image) (loff : ℕ) :
    (bit_of img.PAGE_SIZE loff).toNat = loff % bmp_page_bytes img.PAGE_SIZE ∧
      loff % bmp_page_bytes img.PAGE_SIZE < bmp_page_bytes img.PAGE_SIZE ∧
      pindex_of img.PAGE_SIZE loff * bmp_page_bytes img.PAGE_SIZE + loff % bmp_page_bytes img.PAGE_SIZE = loff := by
  have hpos : 0 < bmp_page_bytes img.PAGE_SIZE := Nat.mul_pos img.pos (by decide)
  have hlt := Nat.mod_lt loff hpos
  have hbits := img.bits
  refine ⟨?_, hlt, Nat.div_add_mod' loff _⟩
  have hint : ((loff % bmp_page_bytes img.PAGE_SIZE : ℕ) : ℤ) < 2 ^ 31 := by exact_mod_cast hlt.trans_le hbits
  rw [bit_of, ← Int.natCast_mod, toInt_of_lt (Int.natCast_nonneg _) hint, Int.toNat_natCast]

/-- what a section does to the array, whatever comes of its I/O -/
structure Section (P : ℕ) (dev : Dev) (r : Res) (err : ℤ) (bits : ℕ → Bool) : Prop where
  ok : r.dev.Ok P
  size : r.dev.bmpsz = dev.bmpsz
  file : ∀ n, test_bit r.dev.bmp n = true → test_bit dev.bmp n = true ∨ test_bit (dev.flat P) n = true
  bits : test_bit (r.dev.flat P) = if err = 0 then bits else test_bit (dev.flat P)

/-- a change of the page that may fail -/
theorem change_flat {P : ℕ} (hP : 0 < P) {dev : Dev} (h : dev.Ok P) {pindex : ℕ} {io : Io}
    (hrestores : Restores P dev pindex io) {err : ℤ} (herr : (ulo_bmp_pindex P dev pindex io).err = some err) :
    Section P dev (ulo_bmp_pindex P dev pindex io) err (test_bit (dev.flat P)) ∧
      (err = 0 → (ulo_bmp_pindex P dev pindex io).dev.bmpidx = pindex) := by
  have hfile : ∀ n, _ := fun n => test_bit_file (n := n) h pindex io
  cases ulo_bmp_pindex_cases hP h pindex io with
  | bug hbug => exact absurd (hbug.symm.trans herr) (Option.some_ne_none err).symm
  | made _ ok idx size flat => exact ⟨⟨ok, size, hfile, by rw [flat, ite_self]⟩, fun _ => idx⟩
  | kept kept ok size flat =>
    obtain ⟨e, he, hne⟩ := kept.err
    obtain rfl := Option.some.inj (he.symm.trans herr)
    exact ⟨⟨ok, size, hfile, by rw [flat, ite_self]⟩, fun hzero => absurd hzero hne⟩
  | failed fails herror left =>
    obtain ⟨e, he, hne⟩ := herror
    obtain rfl := Option.some.inj (he.symm.trans herr)
    obtain ⟨hread, hprev⟩ := hrestores fails
    have flat := (page_kept_iff_flat hP h fails).1 ((page_kept_iff hP h fails hread).2 hprev)
    exact ⟨⟨fails.ok hP h, by rw [left], hfile, by rw [flat, ite_self]⟩, fun hzero => absurd hzero hne⟩

/-- **The test** of a page of the cache. -/
theorem test_section {dev : Dev} (h : dev.Ok img.PAGE_SIZE) (loff : ℕ) {io : Io}
    (hrestores : Restores img.PAGE_SIZE dev (pindex_of img.PAGE_SIZE loff) io) {err : ℤ} {r : Res × Bool}
    (hr : r = uloop_xfer_test img.PAGE_SIZE dev (pindex_of img.PAGE_SIZE loff) (bit_of img.PAGE_SIZE loff).toNat io)
    (herr : r.1.err = some err) :
    Section img.PAGE_SIZE dev r.1 err (test_bit (dev.flat img.PAGE_SIZE)) ∧
      (err = 0 → r.2 = test_bit (dev.flat img.PAGE_SIZE) loff) := by
  obtain ⟨hbit, hlt, hindex⟩ := bit_eq img loff
  rw [hr, uloop_xfer_test] at herr
  obtain ⟨hsection, hidx⟩ := change_flat img.pos h hrestores herr
  rw [hr, uloop_xfer_test]
  refine ⟨hsection, fun hzero => ?_⟩
  have hflat := hsection.bits
  rw [ite_self] at hflat
  dsimp only at herr ⊢
  rw [if_pos (hzero ▸ herr), hbit, ← hsection.ok.test_bit_flat hlt, hidx hzero, hindex, hflat]

/-- **The bit is set.** -/
theorem set_section {dev : Dev} (h : dev.Ok img.PAGE_SIZE) (loff : ℕ) {io : Io}
    (hrestores : Restores img.PAGE_SIZE dev (pindex_of img.PAGE_SIZE loff) io) {err : ℤ} {r : Res}
    (hr : r = ulo_xfer_end_set img.PAGE_SIZE dev (pindex_of img.PAGE_SIZE loff) (bit_of img.PAGE_SIZE loff).toNat io)
    (herr : r.err = some err) :
    Section img.PAGE_SIZE dev r err (Function.update (test_bit (dev.flat img.PAGE_SIZE)) loff true) := by
  obtain ⟨hbit, hlt, hindex⟩ := bit_eq img loff
  have hchange := @change_flat _ img.pos dev h _ io hrestores err
  rw [ulo_xfer_end_set] at hr
  generalize ulo_bmp_pindex img.PAGE_SIZE dev (pindex_of img.PAGE_SIZE loff) io = res at hr hchange
  dsimp only at hr
  by_cases hzero : res.err = some 0
  · rw [if_pos hzero, hbit] at hr
    rw [hr] at herr
    obtain rfl := Option.some.inj (hzero.symm.trans herr)
    obtain ⟨hsection, hidx⟩ := hchange hzero
    have hflat := hsection.bits
    rw [ite_self] at hflat
    rw [hr]
    refine ⟨(Op.act_ok hsection.ok (.set 0 _)).1, hsection.size, hsection.file, ?_⟩
    rw [if_pos rfl]
    refine (hsection.ok.flat_set_bit hlt).trans ?_
    rw [hidx rfl, hindex, hflat]
  · rw [if_neg hzero] at hr
    rw [hr] at herr
    obtain ⟨hsection, -⟩ := hchange herr
    have hne : err ≠ 0 := fun h0 => hzero (h0 ▸ herr)
    rw [hr]
    refine ⟨hsection.ok, hsection.size, hsection.file, ?_⟩
    rw [if_neg hne, hsection.bits, ite_self]

/-! ## The cache -/

/-- a byte of the cache file once it is filled: behind the end of the target there is nothing -/
def Image.filled (img : Image) (i : ℕ) : UInt8 := if i < img.tgt_size then img.real i else 0

def Stored (img : Image) (cache : ℕ → UInt8) (page : ℕ) : Prop := ∀ i, i / img.PAGE_SIZE = page → cache i = img.filled i

/-- nothing is written into the cache but what belongs there -/
def Grows (img : Image) (cache cache' : ℕ → UInt8) : Prop := ∀ i, cache' i = cache i ∨ cache' i = img.filled i

theorem Stored.mono {cache cache' : ℕ → UInt8} {page : ℕ} (h : Stored img cache page)
    (hgrows : Grows img cache cache') : Stored img cache' page := by
  intro i hi
  rcases hgrows i with hsame | hfilled
  · rw [hsame, h i hi]
  · exact hfilled

/-- the range of store: from the first byte of the page to the end of the target at most, and the page is in it -/
theorem store_range {start size : ℕ} {range : ℕ × ℕ} (h : img.store start size = some range) :
    range.1 = start / img.PAGE_SIZE * img.PAGE_SIZE ∧ range.1 + range.2 ≤ img.tgt_size ∧
      (size = img.PAGE_SIZE →
        ∀ i, i / img.PAGE_SIZE = start / img.PAGE_SIZE → i < img.tgt_size → i < range.1 + range.2) := by
  have hpage : start / img.PAGE_SIZE * img.PAGE_SIZE + start % img.PAGE_SIZE = start := Nat.div_add_mod' start _
  rw [Image.store] at h
  dsimp only at h
  split_ifs at h with hassert hend hneg hneg
  all_goals
    obtain rfl := Option.some.inj h
    dsimp only
    refine ⟨by omega, by omega, fun hsize i hi hlt => ?_⟩
    have hin := (Nat.div_eq_iff img.pos).1 hi
    omega

theorem copy_grows {start size : ℕ} {range : ℕ × ℕ} (h : img.store start size = some range) (cache : ℕ → UInt8)
    (written : ℕ → Bool) : Grows img cache (img.copy cache range written) := by
  obtain ⟨-, hend, -⟩ := store_range h
  intro i
  rw [Image.copy]
  split_ifs with hi
  · exact Or.inr (if_pos (hi.2.1.trans_le hend)).symm
  · exact Or.inl rfl

/-- **store** fills the page of the request. -/
theorem copy_stored {start : ℕ} {range : ℕ × ℕ} (h : img.store start img.PAGE_SIZE = some range) {cache : ℕ → UInt8}
    (htail : ∀ i, img.tgt_size ≤ i → cache i = 0) :
    Stored img (img.copy cache range fun _ => true) (start / img.PAGE_SIZE) := by
  obtain ⟨hstart, hend, hpage⟩ := store_range h
  intro i hi
  rw [Image.copy, Image.filled]
  by_cases hlt : i < img.tgt_size
  · have hfrom : range.1 ≤ i := by
      rw [hstart, ← hi]
      exact Nat.div_mul_le_self i _
    rw [if_pos ⟨hfrom, hpage rfl i hi hlt, rfl⟩, if_pos hlt]
  · rw [if_neg (by omega), if_neg hlt, htail i (not_lt.1 hlt)]

/-! ## What all steps keep -/

/-- a request whose page is in the cache -/
structure Answered (img : Image) (cache : ℕ → UInt8) (e : Req) : Prop where
  size : e.size = img.PAGE_SIZE
  stored : Stored img cache (e.start / img.PAGE_SIZE)

/-- the bytes that are read are of the pages that are tested -/
def InPages (P : ℕ) (x : Xfer) : Prop := P ∣ x.start ∨ x.start % P + x.size ≤ P

structure XOk (img : Image) (cache : ℕ → UInt8) (x : Xfer) : Prop where
  back : ∀ e, x.pc = .back e → Answered img cache e
  mark : x.pc = .mark → Stored img cache (x.loff img.PAGE_SIZE)
  /-- the pages before pos -/
  fetched : ∃ n, x.pos = x.start + n * img.PAGE_SIZE ∧ x.sz = x.size - n * img.PAGE_SIZE ∧
    ∀ k < n, Stored img cache (x.start / img.PAGE_SIZE + k)
  copied : x.pc = .done 0 → InPages img.PAGE_SIZE x →
    x.loop_buf = some ((List.range x.size).map fun k => img.filled (x.start + k))

structure DOk (img : Image) (cache : ℕ → UInt8) (w : Daemon) : Prop where
  store : ∀ e, w.pc = .store e → e.size = img.PAGE_SIZE
  answer : ∀ e, w.pc = .answer e → Answered img cache e

structure Inv (img : Image) (s : Sys) : Prop where
  ok : s.dev.Ok img.PAGE_SIZE
  bits : ∀ n, test_bit (s.dev.flat img.PAGE_SIZE) n = true → Stored img s.cache n
  file : ∀ n, test_bit s.dev.bmp n = true → Stored img s.cache n
  tail : ∀ i, img.tgt_size ≤ i → s.cache i = 0
  rcvreq : ∀ e ∈ s.rcvreq, e.size = img.PAGE_SIZE
  sndres : ∀ e ∈ s.sndres, Answered img s.cache e
  xfers : ∀ x ∈ s.xfers, XOk img s.cache x
  daemons : ∀ w ∈ s.daemons, DOk img s.cache w

section Growing

variable {cache cache' : ℕ → UInt8}

theorem Answered.mono {e : Req} (h : Answered img cache e) (hgrows : Grows img cache cache') :
    Answered img cache' e := ⟨h.size, h.stored.mono hgrows⟩

theorem XOk.mono {x : Xfer} (h : XOk img cache x) (hgrows : Grows img cache cache') : XOk img cache' x where
  back e he := (h.back e he).mono hgrows
  mark hpc := (h.mark hpc).mono hgrows
  fetched := by
    obtain ⟨n, hpos, hsz, hpages⟩ := h.fetched
    exact ⟨n, hpos, hsz, fun k hk => (hpages k hk).mono hgrows⟩
  copied := h.copied

theorem DOk.mono {w : Daemon} (h : DOk img cache w) (hgrows : Grows img cache cache') : DOk img cache' w where
  store := h.store
  answer e he := (h.answer e he).mono hgrows

end Growing

/-- a section keeps the invariant if the bits that it may set are of pages in the cache -/
theorem Inv.put_dev (h : Inv img s) {r : Res} {err : ℤ} {bits : ℕ → Bool}
    (hsection : Section img.PAGE_SIZE s.dev r err bits)
    (hbits : ∀ n, bits n = true → Stored img s.cache n) : Inv img { s with dev := r.dev } where
  ok := hsection.ok
  bits n hn := by
    rw [hsection.bits] at hn
    split_ifs at hn
    · exact hbits n hn
    · exact h.bits n hn
  file n hn := (hsection.file n hn).elim (h.file n) (h.bits n)
  tail := h.tail
  rcvreq := h.rcvreq
  sndres := h.sndres
  xfers := h.xfers
  daemons := h.daemons

/-- store keeps it, whatever part is copied -/
theorem Inv.copy (h : Inv img s) {start size : ℕ} {range : ℕ × ℕ} (hstore : img.store start size = some range)
    (written : ℕ → Bool) : Inv img { s with cache := img.copy s.cache range written } where
  ok := h.ok
  bits n hn := (h.bits n hn).mono (copy_grows hstore s.cache written)
  file n hn := (h.file n hn).mono (copy_grows hstore s.cache written)
  tail i hi := by
    rcases copy_grows hstore s.cache written i with hsame | hfilled
    · exact hsame.trans (h.tail i hi)
    · exact hfilled.trans (if_neg (not_lt.2 hi))
  rcvreq := h.rcvreq
  sndres e he := (h.sndres e he).mono (copy_grows hstore s.cache written)
  xfers x hx := (h.xfers x hx).mono (copy_grows hstore s.cache written)
  daemons w hw := (h.daemons w hw).mono (copy_grows hstore s.cache written)

theorem Inv.put_xfer (h : Inv img s) (i : ℕ) {x : Xfer} (hx : XOk img s.cache x) :
    Inv img { s with xfers := s.xfers.set i x } :=
  { h with
    xfers := fun y hy => (List.mem_or_eq_of_mem_set hy).elim (h.xfers y) fun heq => heq ▸ hx }

theorem Inv.put_daemon (h : Inv img s) (pid : ℕ) {w : Daemon} (hw : DOk img s.cache w) :
    Inv img { s with daemons := s.daemons.set pid w } :=
  { h with
    daemons := fun v hv => (List.mem_or_eq_of_mem_set hv).elim (h.daemons v) fun heq => heq ▸ hw }

/-- an end of a transfer without data -/
theorem XOk.fail {cache : ℕ → UInt8} {x : Xfer} (h : XOk img cache x) {err : ℤ} (hne : err ≠ 0) :
    XOk img cache { x with pc := .done err } where
  back e he := by cases he
  mark he := by cases he
  fetched := h.fetched
  copied he := absurd (Xfer.Pc.done.inj he) hne

/-- a transfer goes on where nothing is asked of it -/
theorem XOk.goto {cache : ℕ → UInt8} {x : Xfer} (h : XOk img cache x) {pc : Xfer.Pc}
    (hback : ∀ e, pc = .back e → Answered img cache e) (hmark : pc = .mark → Stored img cache (x.loff img.PAGE_SIZE))
    (hdone : ∀ err, pc ≠ .done err) : XOk img cache { x with pc } where
  back := hback
  mark := hmark
  fetched := h.fetched
  copied he := absurd he (hdone 0)

/-- the next page of the loop -/
theorem XOk.next {cache : ℕ → UInt8} {x : Xfer} (h : XOk img cache x)
    (hstored : Stored img cache (x.loff img.PAGE_SIZE)) : XOk img cache (x.next img.PAGE_SIZE) where
  back e he := by cases he
  mark he := by cases he
  fetched := by
    obtain ⟨n, hpos, hsz, hpages⟩ := h.fetched
    refine ⟨n + 1, ?_, ?_, fun k hk => ?_⟩
    · rw [Xfer.next, hpos, Nat.succ_mul, Nat.add_assoc]
    · rw [Xfer.next, hsz, Nat.succ_mul, Nat.sub_sub]
    · rcases Nat.lt_succ_iff_lt_or_eq.1 hk with hlt | rfl
      · exact hpages k hlt
      · rw [Xfer.loff, hpos, Nat.add_mul_div_right _ _ img.pos] at hstored
        exact hstored
  copied he := by cases he

/-- all pages are there: the transfer copies what is in them -/
theorem XOk.copy {cache : ℕ → UInt8} {x : Xfer} (h : XOk img cache x) (hsz : x.sz = 0) :
    XOk img cache
      { x with pc := .done 0, loop_buf := some ((List.range x.size).map fun k => cache (x.start + k)) } where
  back e he := by cases he
  mark he := by cases he
  fetched := h.fetched
  copied _ hin := by
    obtain ⟨n, -, hlast, hpages⟩ := h.fetched
    have hsize : x.size ≤ n * img.PAGE_SIZE := Nat.sub_eq_zero_iff_le.1 (hlast ▸ hsz)
    refine congrArg some (List.map_congr_left fun k hk => ?_)
    have hk : k < x.size := List.mem_range.1 hk
    -- the page of this byte
    have hpage : ∃ j < n, (x.start + k) / img.PAGE_SIZE = x.start / img.PAGE_SIZE + j := by
      rcases hin with ⟨m, hm⟩ | hone
      · refine ⟨k / img.PAGE_SIZE, (Nat.div_lt_iff_lt_mul img.pos).2 (hk.trans_le hsize), ?_⟩
        rw [hm, Nat.mul_add_div img.pos, Nat.mul_div_cancel_left m img.pos]
      · refine ⟨0, Nat.pos_of_ne_zero fun hzero => ?_, ?_⟩
        · rw [hzero, Nat.zero_mul] at hsize
          omega
        · dsimp only at hone
          have hdiv := Nat.div_add_mod' x.start img.PAGE_SIZE
          rw [Nat.add_zero, Nat.div_eq_iff img.pos]
          omega
    obtain ⟨j, hj, hpage⟩ := hpage
    exact hpages j hj _ hpage

/-- what is asked of the I/O of a step: a page of the bitmap that cannot be read leaves the right one in memory -/
def BitmapIo (img : Image) (s : Sys) : Act → Prop
  | .xfer i (.go io) => ∀ x, s.xfers[i]? = some x → x.pc = .test ∨ x.pc = .mark →
    Restores img.PAGE_SIZE s.dev (x.pindex img.PAGE_SIZE) io
  | _ => True

/-- **A step of a transfer.** -/
theorem XMove.inv (h : Inv img s) {x x' : Xfer} {a : XAct} (hx : XOk img s.cache x)
    (hio : ∀ io, a = .go io → x.pc = .test ∨ x.pc = .mark →
      Restores img.PAGE_SIZE s.dev (x.pindex img.PAGE_SIZE) io)
    (hmove : XMove img.PAGE_SIZE s x a t x') : Inv img t ∧ XOk img t.cache x' := by
  have hgoto : ∀ {pc : Xfer.Pc}, (∀ e, pc ≠ .back e) → pc ≠ .mark → (∀ err, pc ≠ .done err) →
      XOk img s.cache { x with pc } := fun hback hmark hdone =>
    hx.goto (fun e he => absurd he (hback e)) (fun he => absurd he hmark) hdone
  cases hmove with
  | copy hpc hsz => exact ⟨h, hx.copy hsz⟩
  | hit hpc hsz herr hset =>
    obtain ⟨hsection, hanswer⟩ := test_section h.ok (x.loff img.PAGE_SIZE) (hio _ rfl (Or.inl hpc)) rfl herr
    have hbit := (hanswer rfl).symm.trans hset
    exact ⟨h.put_dev hsection h.bits, hx.next (h.bits _ hbit)⟩
  | miss hpc hsz herr hset =>
    obtain ⟨hsection, -⟩ := test_section h.ok (x.loff img.PAGE_SIZE) (hio _ rfl (Or.inl hpc)) rfl herr
    exact ⟨h.put_dev hsection h.bits, hgoto nofun nofun nofun⟩
  | untested hpc hsz hne herr =>
    obtain ⟨hsection, -⟩ := test_section h.ok (x.loff img.PAGE_SIZE) (hio _ rfl (Or.inl hpc)) rfl herr
    exact ⟨h.put_dev hsection h.bits, hx.fail hne⟩
  | take hpc hq => exact ⟨{ h with }, hgoto nofun nofun nofun⟩
  | post hpc =>
    refine ⟨{ h with rcvreq := fun e he => ?_ }, hgoto nofun nofun nofun⟩
    rcases List.mem_append.1 he with hold | hnew
    · exact h.rcvreq e hold
    · rw [List.mem_singleton.1 hnew, Xfer.req]
  | signal hpc hw hlive =>
    have hok := h.daemons _ (List.mem_of_getElem? hw)
    exact ⟨h.put_daemon _ ⟨hok.store, hok.answer⟩, hgoto nofun nofun nofun⟩
  | gone hpc hgone => exact ⟨h, hx.fail (by decide)⟩
  | mine hpc hq =>
    have hanswered := h.sndres _ (hq ▸ List.mem_cons_self)
    refine ⟨{ h with sndres := fun e he => h.sndres e (hq ▸ List.mem_cons_of_mem _ he) }, ?_⟩
    exact hx.goto nofun (fun _ => hanswered.stored) nofun
  | other hpc hq hne =>
    have hanswered := h.sndres _ (hq ▸ List.mem_cons_self)
    refine ⟨{ h with sndres := fun e he => h.sndres e (hq ▸ List.mem_cons_of_mem _ he) }, ?_⟩
    exact hx.goto (fun e he => Xfer.Pc.back.inj he ▸ hanswered) nofun nofun
  | back hpc =>
    refine ⟨{ h with sndres := fun e he => ?_ }, hgoto nofun nofun nofun⟩
    rcases List.mem_append.1 he with hold | hnew
    · exact h.sndres e hold
    · rw [List.mem_singleton.1 hnew]
      exact hx.back _ hpc
  | mark hpc herr =>
    have hstored := hx.mark hpc
    have hsection := set_section h.ok (x.loff img.PAGE_SIZE) (hio _ rfl (Or.inr hpc)) rfl herr
    refine ⟨h.put_dev hsection fun n hn => ?_, hx.next hstored⟩
    by_cases hself : n = x.loff img.PAGE_SIZE
    · exact hself ▸ hstored
    · exact h.bits n (by rwa [Function.update_of_ne hself] at hn)
  | unmarked hpc hne herr =>
    have hstored := hx.mark hpc
    have hsection := set_section h.ok (x.loff img.PAGE_SIZE) (hio _ rfl (Or.inr hpc)) rfl herr
    refine ⟨h.put_dev hsection fun n hn => ?_, hx.fail hne⟩
    by_cases hself : n = x.loff img.PAGE_SIZE
    · exact hself ▸ hstored
    · exact h.bits n (by rwa [Function.update_of_ne hself] at hn)
  | interrupt hpc => exact ⟨h, hx.fail (by decide)⟩

/-- **A step of a process.** -/
theorem DMove.inv (h : Inv img s) {pid : ℕ} {w w' : Daemon} {a : DAct} (hw : DOk img s.cache w)
    (hmove : DMove img s pid w a t w') : Inv img t ∧ DOk img t.cache w' := by
  cases hmove with
  | ready hpc => exact ⟨{ h with }, nofun, nofun⟩
  | wake hpc hsig => exact ⟨h, nofun, nofun⟩
  | enxio hpc hq => exact ⟨h, nofun, nofun⟩
  | rcvreq hpc hq =>
    have hsize := h.rcvreq _ (hq ▸ List.mem_cons_self)
    refine ⟨{ h with rcvreq := fun e he => h.rcvreq e (hq ▸ List.mem_cons_of_mem _ he) }, ?_, nofun⟩
    exact fun e he => Daemon.Pc.store.inj he ▸ hsize
  | unstored hpc hstore => exact ⟨h, nofun, nofun⟩
  | @stored e range hpc hstore =>
    have hsize := hw.store e hpc
    refine ⟨h.copy hstore _, nofun, fun e' he => ?_⟩
    obtain rfl := Daemon.Pc.answer.inj he
    exact ⟨hsize, copy_stored (hsize ▸ hstore) h.tail⟩
  | sndres hpc =>
    refine ⟨{ h with sndres := fun e he => ?_ }, nofun, nofun⟩
    rcases List.mem_append.1 he with hold | hnew
    · exact h.sndres e hold
    · rw [List.mem_singleton.1 hnew]
      exact hw.answer _ hpc
  | part hpc hstore => exact ⟨h.copy hstore _, hw.mono (copy_grows hstore _ _)⟩
  | efault hpc hq =>
    refine ⟨{ h with rcvreq := fun e he => h.rcvreq e ?_ }, nofun, nofun⟩
    rw [hq]
    rcases List.mem_append.1 he with hrest | hnew
    · exact List.mem_cons_of_mem _ hrest
    · exact List.mem_singleton.1 hnew ▸ List.mem_cons_self
  | die hpc => exact ⟨h, nofun, nofun⟩
  | stray hpc => exact ⟨h, hw.store, hw.answer⟩

/-- **What all steps keep**, of any number of transfers and processes. -/
theorem step_inv (s : Sys) (a : Act) (t : Sys) (h : Inv img s) (hio : BitmapIo img s a)
    (hstep : step img s a = some t) : Inv img t := by
  cases step_cases hstep with
  | enter =>
    refine { h with xfers := fun x hx => ?_ }
    rcases List.mem_append.1 hx with hold | hnew
    · exact h.xfers x hold
    · rw [List.mem_singleton.1 hnew]
      exact ⟨nofun, nofun, ⟨0, by simp [Xfer.init]⟩, nofun⟩
  | spawn =>
    refine { h with daemons := fun w hw => ?_ }
    rcases List.mem_append.1 hw with hold | hnew
    · exact h.daemons w hold
    · rw [List.mem_singleton.1 hnew]
      exact ⟨nofun, nofun⟩
  | xfer hx hmove =>
    obtain ⟨hinv, hx'⟩ := hmove.inv h (h.xfers _ (List.mem_of_getElem? hx)) (fun io ha => by subst ha; exact hio _ hx)
    exact hinv.put_xfer _ hx'
  | daemon hw hmove =>
    obtain ⟨hinv, hw'⟩ := hmove.inv h (h.daemons _ (List.mem_of_getElem? hw))
    exact hinv.put_daemon _ hw'

/-- every page of the bitmap can be read -/
def Act.Reads (a : Act) : Prop := ∀ i io, a = .xfer i (.go io) → io.read = .whole

theorem restores_of_read {P : ℕ} {dev : Dev} (h : dev.Ok P) (pindex : ℕ) {io : Io} (hio : io.read = .whole) :
    Restores P dev pindex io := by
  intro hfail
  have hpage : pindex * P + P ≤ (page_write P dev io).2.length := by
    rw [(flat_of_write h io).1]
    exact page_inside hfail.inside
  refine absurd ?_ hfail.failed
  rw [page_read, hio]
  exact congrArg Prod.fst (read_at_page hpage h.buf)

theorem bitmapIo_of_reads (s : Sys) (a : Act) (ha : a.Reads) (h : Inv img s) : BitmapIo img s a := by
  unfold BitmapIo
  split
  · next i io => exact fun x _ _ => restores_of_read h.ok _ (ha i io rfl)
  · trivial

theorem along_reads {as : List Act} (has : ∀ a ∈ as, a.Reads) (h : Inv img s) :
    Along (step img) (BitmapIo img) s as :=
  along_of_kind (step img) Act.Reads (Inv img) _
    (fun s a t ha hs hstep => step_inv s a t hs (bitmapIo_of_reads s a ha hs) hstep) bitmapIo_of_reads has h

/-! ## Reading through the driver -/

/-- the bitmap is set, and nothing is going on -/
def Sys.init (dev : Dev) (cache : ℕ → UInt8) : Sys := ⟨dev, [], [], [], cache, [], []⟩

/-- what the cache is when the driver starts: the pages of an old bitmap are there, and behind the target is nothing -/
structure Reusable (img : Image) (file : Bytes) (cache : ℕ → UInt8) : Prop where
  stored : ∀ n, test_bit file n = true → Stored img cache n
  tail : ∀ i, img.tgt_size ≤ i → cache i = 0

theorem init_inv {ctl : Setbmp} {file : Bytes} (hfile : ctl.bmp = some file) {dev : Dev}
    (hset : ulo_ctl_setbmp img.PAGE_SIZE none ctl = (0, some dev)) {cache : ℕ → UInt8}
    (hcache : Reusable img file cache) : Inv img (.init dev cache) := by
  obtain ⟨hbmp, hok, hflat⟩ := ulo_ctl_setbmp_ok img.pos hset
  obtain rfl := Option.some.inj (hfile.symm.trans hbmp)
  exact ⟨hok, fun n hn => hcache.stored n (hflat ▸ hn), hcache.stored, hcache.tail, nofun, nofun, nofun, nofun⟩

/-- **The bitmap and the cache fit together** at any time and whatever the order of the steps: what is in memory, what
is in the file and what will be in it when the device is released, whether or not its last page can be written. -/
theorem bitmap_sound {ctl : Setbmp} {file : Bytes} (hfile : ctl.bmp = some file) {dev : Dev}
    (hset : ulo_ctl_setbmp img.PAGE_SIZE none ctl = (0, some dev)) {cache : ℕ → UInt8}
    (hcache : Reusable img file cache) {as : List Act}
    (hio : Along (step img) (BitmapIo img) (.init dev cache) as)
    (hrun : exec (step img) (.init dev cache) as = some s) :
    Reusable img (s.dev.flat img.PAGE_SIZE) s.cache ∧ Reusable img s.dev.bmp s.cache ∧
      ∀ res, Reusable img (uloop_release img.PAGE_SIZE s.dev res) s.cache := by
  have hinv := exec_invariant_along (step img) (Inv img) step_inv (init_inv hfile hset hcache) hio hrun
  refine ⟨⟨hinv.bits, hinv.tail⟩, ⟨hinv.file, hinv.tail⟩, fun res => ⟨fun n hn => ?_, hinv.tail⟩⟩
  rcases getElem?_page_write hinv.ok ⟨res, .whole, .whole⟩ (n / 8) with hfile | hflat
  · exact hinv.file n ((test_bit_congr hfile).symm.trans hn)
  · exact hinv.bits n ((test_bit_congr hflat).symm.trans hn)

/-- six bytes in pages of four -/
def six_bytes : Image := ⟨4, by decide, by decide, 6, fun i => UInt8.ofNat (i + 1)⟩

def six_ctl : Setbmp := ⟨true, some [0, 0, 0, 0], 4, true, some fun _ => 0, .whole⟩

def six_dev : Dev := ⟨[0, 0, 0, 0], 0, [0, 0, 0, 0], 4⟩

/-- the second page is read, and a process fills it -/
def six_acts : List Act :=
  [.enter 4 2, .spawn, .daemon 0 .go] ++ List.replicate 4 (.xfer 0 (.go .success)) ++
    List.replicate 4 (.daemon 0 .go) ++ List.replicate 3 (.xfer 0 (.go .success))

theorem six_set : ulo_ctl_setbmp six_bytes.PAGE_SIZE none six_ctl = (0, some six_dev) := by decide

theorem six_reusable : Reusable six_bytes [0, 0, 0, 0] fun _ => 0 where
  stored n hn := by
    have hzero : ∀ i, ([0, 0, 0, 0] : Bytes).getD i 0 = 0 := by
      intro i
      match i with
      | 0 | 1 | 2 | 3 | _ + 4 => rfl
    rw [test_bit, hzero] at hn
    simp at hn
  tail i _ := rfl

theorem six_along : Along (step six_bytes) (BitmapIo six_bytes) (.init six_dev fun _ => 0) six_acts := by
  refine along_reads ?_ (init_inv rfl six_set six_reusable)
  simp [six_acts, Act.Reads, Io.success]

theorem six_run : ∃ s, exec (step six_bytes) (.init six_dev fun _ => 0) six_acts = some s ∧
    s.xfers = [⟨4, 2, 8, 0, .done 0, some [5, 6]⟩] ∧ s.dev = ⟨[0, 0, 0, 0], 0, [2, 0, 0, 0], 4⟩ := ⟨_, rfl, rfl, rfl⟩

theorem bitmap_sound_six : ∃ s, exec (step six_bytes) (.init six_dev fun _ => 0) six_acts = some s ∧
    test_bit (uloop_release 4 s.dev .whole) 1 = true ∧ Reusable six_bytes (uloop_release 4 s.dev .whole) s.cache := by
  obtain ⟨s, hrun, -, hdev⟩ := six_run
  refine ⟨s, hrun, ?_, (bitmap_sound rfl six_set six_reusable six_along hrun).2.2 .whole⟩
  rw [hdev]
  decide

/-- **A transfer that returns 0 has read the image**, whatever else was going on. -/
theorem reads_image {ctl : Setbmp} {file : Bytes} (hfile : ctl.bmp = some file) {dev : Dev}
    (hset : ulo_ctl_setbmp img.PAGE_SIZE none ctl = (0, some dev)) {cache : ℕ → UInt8}
    (hcache : Reusable img file cache) {as : List Act}
    (hio : Along (step img) (BitmapIo img) (.init dev cache) as)
    (hrun : exec (step img) (.init dev cache) as = some s) {x : Xfer} (hx : x ∈ s.xfers) (hdone : x.pc = .done 0)
    (hin : InPages img.PAGE_SIZE x) :
    x.loop_buf = some ((List.range x.size).map fun k => img.filled (x.start + k)) := by
  have hinv := exec_invariant_along (step img) (Inv img) step_inv (init_inv hfile hset hcache) hio hrun
  exact (hinv.xfers x hx).copied hdone hin

theorem reads_image_six : ∃ s, exec (step six_bytes) (.init six_dev fun _ => 0) six_acts = some s ∧
    s.xfers.map (·.loop_buf) = [some ((List.range 2).map fun k => six_bytes.filled (4 + k))] := by
  obtain ⟨s, hrun, hxfers, -⟩ := six_run
  refine ⟨s, hrun, ?_⟩
  rw [hxfers]
  exact congrArg (fun b => [b]) (reads_image rfl six_set six_reusable six_along hrun
    (hxfers ▸ List.mem_singleton_self _) rfl (Or.inl ⟨1, rfl⟩))

end AufsUtil.Uloop.Requests
