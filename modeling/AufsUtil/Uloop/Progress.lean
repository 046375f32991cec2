/-
Nothing stops uloop as long as nothing fails.

While no process ends, no transfer is interrupted and the I/O for the bitmap succeeds, there is always something to do
that brings a transfer nearer to its end. No transfer waits for an element of READY in vain, and none for its request:
if all that is left is to wait, the request at the head of SNDRES is one that a transfer waits for.

- `step_calm`: what all steps keep in such a run (`Calm`).
- `step_lighter`: every step but the taking of a request of another transfer makes `Sys.weight` less.
- `helpful`: such a step is possible.
- `reads_complete`: from any state of such a run all transfers can end, with the bytes of the image.

That a transfer takes back a request of another one and returns it can go on for ever; what is shown is that it need
not.
-/
import Mathlib.Tactic
import AufsUtil.Uloop.Custody

namespace AufsUtil.Uloop.Requests

open AufsUtil.CStr AufsUtil.Bitmap AufsUtil.Runs AufsUtil.Parties

variable {img : Image} {s t : Sys} {bmpsz : ℕ}

/-! ## Runs in which nothing fails -/

/-- pages of the cache are read -/
def Fits (img : Image) (start size : ℕ) : Prop := img.PAGE_SIZE ∣ start ∧ start + size ≤ img.cache_size

/-- nothing fails, and no signal comes from elsewhere -/
def Act.Good (img : Image) : Act → Prop
  | .enter start size => Fits img start size
  | .spawn => True
  | .xfer _ (.go io) => io = .success
  | .xfer _ .interrupt => False
  | .daemon _ .go | .daemon _ (.part _) => True
  | .daemon _ _ => False

/-- store can do this request -/
def InCache (img : Image) (e : Req) : Prop := img.PAGE_SIZE ∣ e.start ∧ e.start + img.PAGE_SIZE ≤ img.cache_size

structure XFit (img : Image) (x : Xfer) : Prop where
  fits : Fits img x.start x.size
  /-- between the test and the bit there is a page to be read -/
  going : x.pc ≠ .test → ¬x.pc.Ended → x.sz ≠ 0
  done : ∀ err, x.pc = .done err → err = 0

/-- what all steps keep in such a run -/
structure Calm (img : Image) (bmpsz : ℕ) (s : Sys) : Prop where
  inv : Inv img s
  signals : Signals s
  size : s.dev.bmpsz = bmpsz
  balanced : ∀ k, s.requests k = s.waiting k
  counted : total Xfer.kills s.xfers + total Daemon.called s.daemons = s.rcvreq.length
  live : ∀ w ∈ s.daemons, w.pc ≠ .dead
  xfers : ∀ x ∈ s.xfers, XFit img x
  rcvreq : ∀ e ∈ s.rcvreq, InCache img e
  store : ∀ w ∈ s.daemons, ∀ e, w.pc = .store e → InCache img e

theorem Act.Good.reads {a : Act} (h : a.Good img) : a.Reads := by
  rintro i io rfl
  rw [Act.Good] at h
  rw [h, Io.success]

theorem Act.Good.own {a : Act} (h : a.Good img) : a.Own := by
  rintro pid rfl
  exact h

/-- the cache has less than a page more than the target -/
theorem cache_size_lt (img : Image) : img.cache_size < img.tgt_size + img.PAGE_SIZE := by
  have hmod := Nat.mod_lt img.tgt_size img.pos
  have hle := Nat.mod_le (img.tgt_size + (img.PAGE_SIZE - img.tgt_size % img.PAGE_SIZE)) (2 ^ 64)
  rw [Image.cache_size, round_up]
  split_ifs <;> omega

/-- the page that a transfer is at -/
theorem XFit.inside {x : Xfer} (h : XFit img x) {cache : ℕ → UInt8} (hx : XOk img cache x)
    (hwhole : img.PAGE_SIZE ∣ img.cache_size) (hsz : x.sz ≠ 0) : InCache img (x.req img.PAGE_SIZE) := by
  obtain ⟨⟨m, hm⟩, hend⟩ := h.fits
  obtain ⟨n, hpos, hrest, -⟩ := hx.fetched
  obtain ⟨c, hc⟩ := hwhole
  have hpage : x.pos = img.PAGE_SIZE * (m + n) := by rw [hpos, hm, Nat.mul_add, Nat.mul_comm n]
  refine ⟨⟨m + n, hpage⟩, ?_⟩
  have hlt : img.PAGE_SIZE * (m + n) < img.PAGE_SIZE * c := by
    rw [← hpage, ← hc]
    omega
  have hle := Nat.mul_le_mul_left img.PAGE_SIZE (Nat.lt_of_mul_lt_mul_left hlt)
  rw [Nat.mul_succ] at hle
  rw [Xfer.req, hpage, hc]
  exact hle

/-- a request that fits is stored -/
theorem InCache.stored {e : Req} (h : InCache img e) (hsize : e.size = img.PAGE_SIZE) :
    ∃ range, img.store e.start e.size = some range := by
  obtain ⟨hdvd, hend⟩ := h
  have hlt := cache_size_lt img
  have hpos := img.pos
  rw [hsize, Image.store, if_neg (not_lt.2 hend), Nat.mod_eq_zero_of_dvd hdvd]
  dsimp only
  rw [if_neg]
  · exact ⟨_, rfl⟩
  · split_ifs <;> omega

/-- every page of the cache has a bit -/
def Pages (img : Image) (bmpsz : ℕ) : Prop :=
  img.PAGE_SIZE ∣ img.cache_size ∧
    ∀ loff < img.cache_size / img.PAGE_SIZE, pindex_of img.PAGE_SIZE loff < bmpsz / img.PAGE_SIZE

theorem InCache.page {x : Xfer} (h : InCache img (x.req img.PAGE_SIZE)) (hpages : Pages img bmpsz) :
    x.pindex img.PAGE_SIZE < bmpsz / img.PAGE_SIZE := by
  have hend : x.pos + img.PAGE_SIZE ≤ img.cache_size := h.2
  have hpos := img.pos
  exact hpages.2 _ (Nat.div_lt_div_of_lt_of_dvd hpages.1 (by omega))

theorem test_success {dev : Dev} (h : dev.Ok img.PAGE_SIZE) {pindex : ℕ} (hin : pindex < dev.bmpsz / img.PAGE_SIZE)
    (bit : ℕ) : (uloop_xfer_test img.PAGE_SIZE dev pindex bit .success).1.err = some 0 ∧
      (uloop_xfer_test img.PAGE_SIZE dev pindex bit .success).1.dev.bmpsz = dev.bmpsz := by
  obtain ⟨dev', ops, hres, -, -, hsize, -⟩ := ulo_bmp_pindex_flat h hin
  rw [uloop_xfer_test, hres]
  exact ⟨rfl, hsize⟩

theorem set_success {dev : Dev} (h : dev.Ok img.PAGE_SIZE) {pindex : ℕ} (hin : pindex < dev.bmpsz / img.PAGE_SIZE)
    (bit : ℕ) : (ulo_xfer_end_set img.PAGE_SIZE dev pindex bit .success).err = some 0 ∧
      (ulo_xfer_end_set img.PAGE_SIZE dev pindex bit .success).dev.bmpsz = dev.bmpsz := by
  obtain ⟨dev', ops, hres, -, -, hsize, -⟩ := ulo_bmp_pindex_flat h hin
  rw [ulo_xfer_end_set, hres]
  exact ⟨rfl, hsize⟩

/-- a transfer that is to test or to set a bit can -/
theorem Calm.section (h : Calm img bmpsz s) (hpages : Pages img bmpsz) {x : Xfer} (hx : x ∈ s.xfers) (hsz : x.sz ≠ 0) :
    x.pindex img.PAGE_SIZE < s.dev.bmpsz / img.PAGE_SIZE := by
  rw [h.size]
  exact ((h.xfers x hx).inside (h.inv.xfers x hx) hpages.1 hsz).page hpages

/-- a process whose element is taken is there -/
theorem Calm.kill_live (h : Calm img bmpsz s) {x : Xfer} (hx : x ∈ s.xfers) {pid : ℕ} (hpc : x.pc = .kill pid) :
    ¬∀ w, s.daemons[pid]? = some w → w.pc = .dead := by
  intro hgone
  cases hw : s.daemons[pid]? with
  | none =>
    have hzero := h.signals.nobody pid hw
    have hcalls := le_calls hx pid
    have hnamed := named_nonneg pid s.ready
    rw [Xfer.calls, hpc] at hcalls
    simp only [if_true] at hcalls
    linarith
  | some w => exact h.live w (List.mem_of_getElem? hw) (hgone w hw)

/-! ## What all steps keep -/

theorem XFit.goto {x : Xfer} (h : XFit img x) {pc : Xfer.Pc} (hsz : pc ≠ .test → x.sz ≠ 0)
    (hdone : ∀ err, pc ≠ .done err) : XFit img { x with pc } where
  fits := h.fits
  going hne _ := hsz hne
  done err he := absurd he (hdone err)

/-- **A step of a transfer** fails in nothing. -/
theorem XMove.fits {x x' : Xfer} {a : XAct} (h : Calm img bmpsz s) (hpages : Pages img bmpsz) (hx : x ∈ s.xfers)
    (ha : a = .go .success) (hmove : XMove img.PAGE_SIZE s x a t x') :
    XFit img x' ∧ t.dev.bmpsz = bmpsz ∧ (∀ e ∈ t.rcvreq, InCache img e) ∧
      (∀ w ∈ t.daemons, ∃ v ∈ s.daemons, w.pc = v.pc) := by
  have hfit := h.xfers x hx
  have hsame : ∀ w ∈ s.daemons, ∃ v ∈ s.daemons, w.pc = v.pc := fun w hw => ⟨w, hw, rfl⟩
  have hgoing : x.pc ≠ .test → ¬x.pc.Ended → InCache img (x.req img.PAGE_SIZE) :=
    fun hne hend => hfit.inside (h.inv.xfers x hx) hpages.1 (hfit.going hne hend)
  cases hmove with
  | copy hpc hsz =>
    refine ⟨⟨hfit.fits, fun _ hend => absurd trivial hend, fun err he => (Xfer.Pc.done.inj he).symm⟩, h.size, h.rcvreq,
      hsame⟩
  | hit hpc hsz herr hset =>
    obtain rfl := XAct.go.inj ha
    have hsize := (test_success h.inv.ok (h.section hpages hx hsz) (x.bit img.PAGE_SIZE)).2
    exact ⟨⟨hfit.fits, fun hne => absurd rfl hne, fun _ he => by cases he⟩, hsize.trans h.size, h.rcvreq, hsame⟩
  | miss hpc hsz herr hset =>
    obtain rfl := XAct.go.inj ha
    have hsize := (test_success h.inv.ok (h.section hpages hx hsz) (x.bit img.PAGE_SIZE)).2
    exact ⟨hfit.goto (fun _ => hsz) (by simp), hsize.trans h.size, h.rcvreq, hsame⟩
  | untested hpc hsz hne herr =>
    obtain rfl := XAct.go.inj ha
    have hzero := (test_success h.inv.ok (h.section hpages hx hsz) (x.bit img.PAGE_SIZE)).1
    exact absurd (Option.some.inj (herr.symm.trans hzero)) hne
  | take hpc hq =>
    have hsz := hfit.going (by simp [hpc]) (by simp [hpc, Xfer.Pc.Ended])
    exact ⟨hfit.goto (fun _ => hsz) (by simp), h.size, h.rcvreq, hsame⟩
  | post hpc =>
    have hend : ¬x.pc.Ended := by simp [hpc, Xfer.Pc.Ended]
    have hne : x.pc ≠ .test := by simp [hpc]
    refine ⟨hfit.goto (fun _ => hfit.going hne hend) (by simp), h.size, fun e he => ?_, hsame⟩
    rcases List.mem_append.1 he with hold | hnew
    · exact h.rcvreq e hold
    · exact List.mem_singleton.1 hnew ▸ hgoing hne hend
  | @signal _ pid w hpc hw hlive =>
    have hsz := hfit.going (by simp [hpc]) (by simp [hpc, Xfer.Pc.Ended])
    refine ⟨hfit.goto (fun _ => hsz) (by simp), h.size, h.rcvreq, fun v hv => ?_⟩
    rcases List.mem_or_eq_of_mem_set hv with hold | rfl
    · exact ⟨v, hold, rfl⟩
    · exact ⟨w, List.mem_of_getElem? hw, rfl⟩
  | @gone _ pid hpc hgone =>
    exact absurd hgone (h.kill_live hx hpc)
  | mine hpc hq | other hpc hq _ | back hpc =>
    have hsz := hfit.going (by simp [hpc]) (by simp [hpc, Xfer.Pc.Ended])
    exact ⟨hfit.goto (fun _ => hsz) (by simp), h.size, h.rcvreq, hsame⟩
  | mark hpc herr =>
    obtain rfl := XAct.go.inj ha
    have hsz := hfit.going (by simp [hpc]) (by simp [hpc, Xfer.Pc.Ended])
    have hsize := (set_success h.inv.ok (h.section hpages hx hsz) (x.bit img.PAGE_SIZE)).2
    exact ⟨⟨hfit.fits, fun hne => absurd rfl hne, fun _ he => by cases he⟩, hsize.trans h.size, h.rcvreq, hsame⟩
  | unmarked hpc hne herr =>
    obtain rfl := XAct.go.inj ha
    have hsz := hfit.going (by simp [hpc]) (by simp [hpc, Xfer.Pc.Ended])
    have hzero := (set_success h.inv.ok (h.section hpages hx hsz) (x.bit img.PAGE_SIZE)).1
    exact absurd (Option.some.inj (herr.symm.trans hzero)) hne
  | interrupt hpc => cases ha

/-- a transfer adds a request and its signal together -/
theorem XMove.counted {x x' : Xfer} {a : XAct} (h : Calm img bmpsz s) (hx : x ∈ s.xfers)
    (hmove : XMove img.PAGE_SIZE s x a t x') :
    x'.kills + total Daemon.called t.daemons - t.rcvreq.length =
      x.kills + total Daemon.called s.daemons - s.rcvreq.length := by
  cases hmove with
  | copy hpc _ | untested hpc _ _ _ | unmarked hpc _ _ | miss hpc _ _ _ | take hpc _ | mine hpc _ | other hpc _ _
    | back hpc => simp [Xfer.kills, hpc]
  | hit hpc _ _ _ | mark hpc _ => simp [Xfer.kills, Xfer.next, hpc]
  | post hpc =>
    simp only [Xfer.kills, hpc, List.length_append, List.length_singleton]
    push_cast
    ring
  | @signal _ pid w hpc hw hlive =>
    obtain ⟨hwait, hpending⟩ := h.signals.wait_of_kill hx hpc hw hlive
    simp only [total_set _ hw, Xfer.kills, Daemon.called, Daemon.ring, hpc, hwait, hpending, if_true,
      Bool.false_eq_true, if_false]
    ring
  | gone hpc hgone => exact absurd hgone (h.kill_live hx hpc)
  | interrupt hpc => rcases hpc with hpc | hpc <;> simp [Xfer.kills, hpc]

/-- a transfer that ends without an error does not wait -/
theorem XMove.waits_of_ended {P : ℕ} {x x' : Xfer} {a : XAct} (hmove : XMove P s x a t x')
    (hdone : ∀ err, x'.pc = .done err → err = 0) (hend : x'.pc.Ended) (k : ℕ) : x.waits k = 0 := by
  cases hmove with
  | copy hpc _ | untested hpc _ _ _ | unmarked hpc _ _ => simp [Xfer.waits, hpc]
  | gone hpc _ => exact absurd (hdone _ rfl) (by decide)
  | interrupt hpc => exact absurd (hdone _ rfl) (by decide)
  | hit _ _ _ _ | mark _ _ | miss _ _ _ _ | take _ _ | post _ | signal _ _ _ | mine _ _ | other _ _ _ | back _ =>
    exact absurd hend id

/-- **A step of a process** fails in nothing. -/
theorem DMove.fits {pid : ℕ} {w w' : Daemon} {a : DAct} (h : Calm img bmpsz s) (hw : s.daemons[pid]? = some w)
    (ha : (Act.daemon pid a).Good img) (hmove : DMove img s pid w a t w') :
    w'.pc ≠ .dead ∧ t.dev = s.dev ∧ (∀ e, w'.pc = .store e → InCache img e) ∧ (∀ e ∈ t.rcvreq, InCache img e) ∧
      w'.called - t.rcvreq.length = w.called - s.rcvreq.length := by
  have hmem := List.mem_of_getElem? hw
  cases hmove with
  | ready hpc =>
    have hring := h.signals.ring_of_ne hw (by simp [hpc]) (by simp [hpc])
    have hcalled : Daemon.called { w with pc := .wait } = 0 := hring
    exact ⟨(by simp), rfl, (by simp), h.rcvreq, by rw [hcalled, Daemon.called, hpc]⟩
  | wake hpc hsig => exact ⟨(by simp), rfl, (by simp), h.rcvreq, by simp [Daemon.called, Daemon.ring, hpc, hsig]⟩
  | enxio hpc hq =>
    have hcalled := le_total _ Daemon.called_nonneg hmem
    have hkills := total_nonneg _ Xfer.kills_nonneg s.xfers
    have hcounted := h.counted
    rw [Daemon.called, hpc] at hcalled
    rw [hq, List.length_nil, Nat.cast_zero] at hcounted
    dsimp only at hcalled
    linarith
  | rcvreq hpc hq =>
    refine ⟨(by simp), rfl, fun e he => ?_, fun e he => h.rcvreq e (hq ▸ List.mem_cons_of_mem _ he), ?_⟩
    · exact Daemon.Pc.store.inj he ▸ h.rcvreq _ (hq ▸ List.mem_cons_self)
    · simp only [Daemon.called, hpc, hq, List.length_cons]
      push_cast
      ring
  | unstored hpc hstore =>
    obtain ⟨range, hrange⟩ := (h.store w hmem _ hpc).stored ((h.inv.daemons w hmem).store _ hpc)
    exact absurd (hstore.symm.trans hrange) (Option.some_ne_none _).symm
  | stored hpc _ | sndres hpc => exact ⟨(by simp), rfl, (by simp), h.rcvreq, by simp [Daemon.called, hpc]⟩
  | part hpc _ => exact ⟨h.live w hmem, rfl, h.store w hmem, h.rcvreq, rfl⟩
  | efault _ _ | die _ | stray _ => exact absurd ha id

theorem step_calm (hpages : Pages img bmpsz) (s : Sys) (a : Act) (t : Sys) (ha : a.Good img) (h : Calm img bmpsz s)
    (hstep : step img s a = some t) : Calm img bmpsz t := by
  have hinv := step_inv s a t h.inv (bitmapIo_of_reads s a ha.reads h.inv) hstep
  have hsignals := step_signals s a t ha.own h.signals hstep
  have haccount : ∀ k, lost k s a t = 0 → left k s a t = 0 → t.requests k = t.waiting k := by
    intro k hlost hleft
    have hstep' := step_account k s a t hstep
    rw [hlost, hleft, h.balanced k] at hstep'
    linarith
  cases step_cases hstep with
  | @enter start size =>
    refine ⟨hinv, hsignals, h.size, fun k => haccount k rfl rfl, ?_, h.live, fun x hx => ?_, h.rcvreq, h.store⟩
    · simpa [Xfer.init, Xfer.kills] using h.counted
    · rcases List.mem_append.1 hx with hold | hnew
      · exact h.xfers x hold
      · rw [List.mem_singleton.1 hnew]
        exact ⟨ha, fun hne => absurd rfl hne, fun _ he => by cases he⟩
  | spawn =>
    refine ⟨hinv, hsignals, h.size, fun k => haccount k rfl rfl, ?_, fun w hw => ?_, h.xfers, h.rcvreq, fun w hw => ?_⟩
    · simpa [Daemon.called] using h.counted
    · rcases List.mem_append.1 hw with hold | hnew
      · exact h.live w hold
      · rw [List.mem_singleton.1 hnew]
        simp
    · rcases List.mem_append.1 hw with hold | hnew
      · exact h.store w hold
      · rw [List.mem_singleton.1 hnew]
        simp
  | @xfer i a x x' s' hx hmove =>
    have hmem := List.mem_of_getElem? hx
    have hgo : a = .go .success := by
      cases a with
      | go io => exact congrArg XAct.go ha
      | interrupt => exact absurd ha id
    obtain ⟨hxfers, -⟩ := hmove.account 0
    have hcounted := hmove.counted h hmem
    obtain ⟨hfit, hsize, hrcvreq, hpcs⟩ := hmove.fits h hpages hmem hgo
    have hx' : (s'.xfers.set i x')[i]? = some x' := by
      rw [hxfers]
      exact List.getElem?_set_self (List.getElem?_eq_some_iff.1 hx).1
    refine ⟨hinv, hsignals, hsize, fun k => haccount k rfl ?_, ?_, fun w hw => ?_, fun y hy => ?_, hrcvreq,
      fun w hw => ?_⟩
    · simp only [left, hx, hx']
      split_ifs with hend
      · exact hmove.waits_of_ended hfit.done hend k
      · rfl
    · have hbefore := h.counted
      dsimp only
      rw [hxfers, total_set _ hx]
      linarith
    · obtain ⟨v, hv, hpc⟩ := hpcs w hw
      exact hpc ▸ h.live v hv
    · rcases List.mem_or_eq_of_mem_set hy with hold | rfl
      · exact h.xfers y (hxfers ▸ hold)
      · exact hfit
    · obtain ⟨v, hv, hpc⟩ := hpcs w hw
      exact hpc ▸ h.store v hv
  | @daemon pid a w w' s' hw hmove =>
    obtain ⟨hxfers, hdaemons, -⟩ := hmove.account 0
    obtain ⟨hlive, hdev, hstore, hrcvreq, hcounted⟩ := hmove.fits h hw ha
    have hw' : (s'.daemons.set pid w')[pid]? = some w' := by
      rw [hdaemons]
      exact List.getElem?_set_self (List.getElem?_eq_some_iff.1 hw).1
    refine ⟨hinv, hsignals, hdev ▸ h.size, fun k => haccount k ?_ rfl, ?_, fun v hv => ?_, hxfers ▸ h.xfers, hrcvreq,
      fun v hv => ?_⟩
    · simp only [lost, hw, hw', if_neg hlive]
    · have hbefore := h.counted
      dsimp only
      rw [hxfers, hdaemons, total_set _ hw]
      linarith
    · rcases List.mem_or_eq_of_mem_set hv with hold | rfl
      · exact h.live v (hdaemons ▸ hold)
      · exact hlive
    · rcases List.mem_or_eq_of_mem_set hv with hold | rfl
      · exact h.store v (hdaemons ▸ hold)
      · exact hstore

/-! ## What is left to do -/

/-- a bound of the steps of a transfer, with those that a process does for it -/
def Xfer.weight (x : Xfer) : ℤ :=
  match x.pc with
  | .test => 12 * x.sz + 1
  | .ready => 12 * (x.sz - 1 : ℕ) + 12
  | .post _ => 12 * (x.sz - 1 : ℕ) + 11
  | .kill _ => 12 * (x.sz - 1 : ℕ) + 10
  | .back _ => 12 * (x.sz - 1 : ℕ) + 5
  | .sndres => 12 * (x.sz - 1 : ℕ) + 4
  | .mark => 12 * (x.sz - 1 : ℕ) + 3
  | .done _ => 0

def Daemon.weight (w : Daemon) : ℤ :=
  5 * w.ring + match w.pc with
    | .woken => 4
    | .store _ => 3
    | .answer _ => 2
    | .top => 1
    | .wait | .dead => 0

def Sys.weight (s : Sys) : ℤ := total Xfer.weight s.xfers + total Daemon.weight s.daemons

theorem Xfer.weight_nonneg (x : Xfer) : 0 ≤ x.weight := by
  unfold Xfer.weight
  split <;> positivity

theorem Daemon.weight_nonneg (w : Daemon) : 0 ≤ w.weight := by
  have hring := w.ring_nonneg
  unfold Daemon.weight
  split <;> linarith

theorem Sys.weight_nonneg (s : Sys) : 0 ≤ s.weight :=
  add_nonneg (total_nonneg _ Xfer.weight_nonneg _) (total_nonneg _ Daemon.weight_nonneg _)

/-- the next page has less weight than any step for this one -/
theorem Xfer.weight_next {P : ℕ} (hP : 0 < P) (x : Xfer) :
    (x.next P).weight < 12 * (x.sz - 1 : ℕ) + 3 := by
  rw [Xfer.next, Xfer.weight]
  dsimp only
  omega

/-- **A step of a transfer** makes what is left to do less, unless it takes a request of another one. -/
theorem XMove.lighter {x x' : Xfer} {a : XAct} (h : Calm img bmpsz s) (hx : x ∈ s.xfers)
    (hhead : x.pc = .sndres → s.sndres.head? = some (x.req img.PAGE_SIZE))
    (hmove : XMove img.PAGE_SIZE s x a t x') :
    x'.weight + total Daemon.weight t.daemons < x.weight + total Daemon.weight s.daemons := by
  cases hmove with
  | copy hpc _ | untested hpc _ _ _ | unmarked hpc _ _ =>
    simp only [Xfer.weight, hpc]
    omega
  | hit hpc _ _ _ =>
    have hnext := x.weight_next img.pos
    have hweight : x.weight = 12 * x.sz + 1 := by rw [Xfer.weight, hpc]
    dsimp only
    omega
  | mark hpc _ =>
    have hnext := x.weight_next img.pos
    have hweight : x.weight = 12 * (x.sz - 1 : ℕ) + 3 := by rw [Xfer.weight, hpc]
    dsimp only
    omega
  | miss hpc hsz _ _ =>
    simp only [Xfer.weight, hpc]
    omega
  | take hpc _ | post hpc | mine hpc _ | back hpc =>
    simp only [Xfer.weight, hpc]
    omega
  | @signal _ pid w hpc hw hlive =>
    obtain ⟨hwait, hpending⟩ := h.signals.wait_of_kill hx hpc hw hlive
    simp only [total_set _ hw, Xfer.weight, Daemon.weight, Daemon.ring, hpc, hwait, hpending, if_true,
      Bool.false_eq_true, if_false]
    omega
  | gone hpc hgone => exact absurd hgone (h.kill_live hx hpc)
  | other hpc hq hne =>
    have hfirst := hhead hpc
    rw [hq, List.head?_cons] at hfirst
    exact absurd (Option.some.inj hfirst) hne
  | interrupt hpc => rcases hpc with hpc | hpc <;> simp only [Xfer.weight, hpc] <;> omega

theorem DMove.lighter {pid : ℕ} {w w' : Daemon} (hmove : DMove img s pid w .go t w') : w'.weight < w.weight := by
  cases hmove with
  | wake hpc hsig => simp [Daemon.weight, Daemon.ring, hpc, hsig]
  | ready hpc | enxio hpc _ | rcvreq hpc _ | unstored hpc _ | stored hpc _ | sndres hpc =>
    simp [Daemon.weight, Daemon.ring, hpc]

/-! ## There is always something to do -/

/-- one of those that are there goes on -/
def Act.Goes (a : Act) : Prop := (∃ i, a = .xfer i (.go .success)) ∨ ∃ pid, a = .daemon pid .go

theorem Act.Goes.good {a : Act} (h : a.Goes) : a.Good img := by
  rcases h with ⟨i, rfl⟩ | ⟨pid, rfl⟩
  · exact rfl
  · exact trivial

/-- a transfer that does not wait for a queue can go on -/
theorem Calm.can_go (h : Calm img bmpsz s) (hpages : Pages img bmpsz) {x : Xfer} (hx : x ∈ s.xfers)
    (hend : ¬x.pc.Ended) (hready : x.pc = .ready → s.ready ≠ []) (hsndres : x.pc = .sndres → s.sndres ≠ []) :
    ∃ r, x.step img.PAGE_SIZE s (.go .success) = some r := by
  cases hpc : x.pc with
  | test =>
    by_cases hsz : x.sz = 0
    · simp only [Xfer.step, hpc, if_pos hsz, Option.some.injEq, exists_eq']
    · have hzero := (test_success h.inv.ok (h.section hpages hx hsz) (x.bit img.PAGE_SIZE)).1
      simp only [Xfer.step, hpc, if_neg hsz, hzero, Option.map_some, Option.some.injEq, exists_eq']
  | ready =>
    obtain ⟨pid, rest, hq⟩ := List.exists_cons_of_ne_nil (hready hpc)
    simp only [Xfer.step, hpc, hq, Option.some.injEq, exists_eq']
  | post pid => simp only [Xfer.step, hpc, Option.some.injEq, exists_eq']
  | kill pid =>
    simp only [Xfer.step, hpc]
    cases s.kill_pid pid with
    | none => exact ⟨_, rfl⟩
    | some s' => exact ⟨_, rfl⟩
  | sndres =>
    obtain ⟨e, rest, hq⟩ := List.exists_cons_of_ne_nil (hsndres hpc)
    simp only [Xfer.step, hpc, hq, Option.some.injEq, exists_eq']
  | back e => simp only [Xfer.step, hpc, Option.some.injEq, exists_eq']
  | mark =>
    have hsz := (h.xfers x hx).going (by simp [hpc]) hend
    have hzero := (set_success h.inv.ok (h.section hpages hx hsz) (x.bit img.PAGE_SIZE)).1
    simp only [Xfer.step, hpc, hzero, Option.map_some, Option.some.injEq, exists_eq']
  | done err => exact absurd (hpc ▸ trivial) hend

theorem Daemon.can_go {w : Daemon} (hlive : w.pc ≠ .dead) (hwait : w.pc = .wait → w.pending = true) (pid : ℕ) :
    ∃ r, w.step img s pid .go = some r := by
  cases hpc : w.pc with
  | top | answer e => simp only [Daemon.step, hpc, Option.some.injEq, exists_eq']
  | wait => simp only [Daemon.step, hpc, hwait hpc, if_true, Option.some.injEq, exists_eq']
  | woken =>
    simp only [Daemon.step, hpc]
    cases s.rcvreq with
    | nil => exact ⟨_, rfl⟩
    | cons e rest => exact ⟨_, rfl⟩
  | store e =>
    simp only [Daemon.step, hpc]
    cases img.store e.start e.size with
    | none => exact ⟨_, rfl⟩
    | some range => exact ⟨_, rfl⟩
  | dead => exact absurd hpc hlive

/-- a step of one that is there and makes what is left to do less -/
def Helpful (img : Image) (s : Sys) : Prop := ∃ a t, a.Goes ∧ step img s a = some t ∧ t.weight < s.weight

theorem Calm.xfer_helpful (h : Calm img bmpsz s) (hpages : Pages img bmpsz) {x : Xfer} (hx : x ∈ s.xfers)
    (hend : ¬x.pc.Ended) (hready : x.pc = .ready → s.ready ≠ [])
    (hhead : x.pc = .sndres → s.sndres.head? = some (x.req img.PAGE_SIZE)) : Helpful img s := by
  obtain ⟨i, hi⟩ := List.getElem?_of_mem hx
  have hsndres : x.pc = .sndres → s.sndres ≠ [] := fun hpc hnil => by
    have hfirst := hhead hpc
    rw [hnil] at hfirst
    cases hfirst
  obtain ⟨⟨s', x'⟩, hgo⟩ := h.can_go hpages hx hend hready hsndres
  have hmove := Xfer.step_cases hgo
  have hlighter := hmove.lighter h hx hhead
  refine ⟨.xfer i (.go .success), { s' with xfers := s'.xfers.set i x' }, Or.inl ⟨i, rfl⟩, ?_, ?_⟩
  · simp only [step, hi, hgo, Option.map_some]
  · rw [Sys.weight, Sys.weight]
    dsimp only
    rw [(hmove.account 0).1, total_set _ hi]
    linarith

theorem Calm.daemon_helpful (h : Calm img bmpsz s) {w : Daemon} (hw : w ∈ s.daemons)
    (hwait : w.pc = .wait → w.pending = true) : Helpful img s := by
  obtain ⟨pid, hpid⟩ := List.getElem?_of_mem hw
  obtain ⟨⟨s', w'⟩, hgo⟩ := @Daemon.can_go img s w (h.live w hw) hwait pid
  have hmove := Daemon.step_cases hgo
  have hlighter := hmove.lighter
  obtain ⟨hxfers, hdaemons, -⟩ := hmove.account 0
  refine ⟨.daemon pid .go, { s' with daemons := s'.daemons.set pid w' }, Or.inr ⟨pid, rfl⟩, ?_, ?_⟩
  · simp only [step, hpid, hgo, Option.map_some]
  · rw [Sys.weight, Sys.weight]
    dsimp only
    rw [hxfers, hdaemons, total_set _ hpid]
    linarith

/-- all that is left is to wait -/
structure Waiting (s : Sys) : Prop where
  xfers : ∀ x ∈ s.xfers, x.pc = .ready ∨ x.pc = .sndres ∨ ∃ err, x.pc = .done err
  daemons : ∀ w ∈ s.daemons, w.pc = .wait ∧ w.pending = false

/-- nobody waits for an element of READY if a process waits for its signal -/
theorem Calm.ready_ne (h : Calm img bmpsz s) (hwaiting : Waiting s) (hdaemons : s.daemons ≠ []) : s.ready ≠ [] := by
  obtain ⟨w, rest, hw⟩ := List.exists_cons_of_ne_nil hdaemons
  have hget : s.daemons[0]? = some w := by rw [hw, List.getElem?_cons_zero]
  have hmem := List.mem_of_getElem? hget
  obtain ⟨hpc, hpending⟩ := hwaiting.daemons w hmem
  have hone := h.signals.one 0 w hget (h.live w hmem)
  have hcalls : total (Xfer.calls 0) s.xfers = 0 := total_eq_zero fun x hx => by
    obtain hpc | hpc | ⟨err, hpc⟩ := hwaiting.xfers x hx <;> rw [Xfer.calls, hpc]
  intro hnil
  rw [Sys.calls, hcalls, hnil, Daemon.ring, Daemon.due, hpc, hpending] at hone
  cases hone

/-- **The head of SNDRES is waited for.** A transfer waits for its request, and no request is elsewhere. -/
theorem Calm.head_waited (h : Calm img bmpsz s) (hwaiting : Waiting s) {x : Xfer} (hx : x ∈ s.xfers)
    (hpc : x.pc = .sndres) :
    ∃ y ∈ s.xfers, y.pc = .sndres ∧ s.sndres.head? = some (y.req img.PAGE_SIZE) := by
  have hkills : total Xfer.kills s.xfers = 0 := total_eq_zero fun y hy => by
    obtain hpc | hpc | ⟨err, hpc⟩ := hwaiting.xfers y hy <;> rw [Xfer.kills, hpc]
  have hcalled : total Daemon.called s.daemons = 0 := total_eq_zero fun w hw => by
    obtain ⟨hpc, hpending⟩ := hwaiting.daemons w hw
    rw [Daemon.called, hpc, Daemon.ring, hpending]
    rfl
  have hrcvreq : s.rcvreq = [] := by
    have hcounted := h.counted
    rw [hkills, hcalled, add_zero] at hcounted
    exact List.length_eq_zero_iff.1 (Int.ofNat_eq_zero.1 hcounted.symm)
  have hsndres : ∀ k, queued k s.sndres = s.waiting k := by
    intro k
    have hdaemons : total (Daemon.hand k) s.daemons = 0 := total_eq_zero fun w hw => by
      rw [Daemon.hand, (hwaiting.daemons w hw).1]
    have hxfers : total (Xfer.hand k) s.xfers = 0 := total_eq_zero fun y hy => by
      obtain hpc | hpc | ⟨err, hpc⟩ := hwaiting.xfers y hy <;> rw [Xfer.hand, hpc]
    have hbalanced := h.balanced k
    rw [Sys.requests, hdaemons, hxfers, hrcvreq, add_zero, add_zero] at hbalanced
    rw [← hbalanced]
    exact (zero_add _).symm
  have hwaits : ∀ k (y : Xfer), 0 ≤ y.waits k := fun k y => by
    unfold Xfer.waits
    split <;> first | split_ifs <;> decide | exact le_rfl
  have hmine : 1 ≤ s.waiting x.pos := by
    have hle := le_total (Xfer.waits x.pos) (hwaits x.pos) hx
    rw [Xfer.waits, hpc] at hle
    simpa [Sys.waiting] using hle
  cases hq : s.sndres with
  | nil =>
    have hnone : queued x.pos [] = 0 := rfl
    rw [← hsndres, hq, hnone] at hmine
    exact absurd hmine (by decide)
  | cons e rest =>
    have hfirst : 0 < s.waiting e.start := by
      have hrest : 0 ≤ queued e.start rest := total_nonneg _ (fun e => by split_ifs <;> decide) rest
      rw [← hsndres, hq, queued_cons, if_pos rfl]
      linarith
    obtain ⟨y, hy, hpos⟩ := exists_of_total_pos _ hfirst
    refine ⟨y, hy, ?_⟩
    obtain hpc | hpc | ⟨err, hpc⟩ := hwaiting.xfers y hy <;> rw [Xfer.waits, hpc] at hpos
    · exact absurd hpos (lt_irrefl _)
    · dsimp only at hpos
      split_ifs at hpos with heq
      · have hsize := (h.inv.sndres e (hq ▸ List.mem_cons_self)).size
        refine ⟨hpc, ?_⟩
        rw [List.head?_cons, Xfer.req, heq, ← hsize]
      · exact absurd hpos (lt_irrefl _)
    · exact absurd hpos (lt_irrefl _)

/-- **There is always something to do.** -/
theorem helpful (h : Calm img bmpsz s) (hpages : Pages img bmpsz) (hdaemons : s.daemons ≠ [])
    (hopen : ∃ x ∈ s.xfers, ¬x.pc.Ended) : Helpful img s := by
  by_cases hbusy : ∃ w ∈ s.daemons, w.pc = .wait → w.pending = true
  · obtain ⟨w, hw, hwait⟩ := hbusy
    exact h.daemon_helpful hw hwait
  push Not at hbusy
  by_cases hgoes : ∃ x ∈ s.xfers, ¬x.pc.Ended ∧ x.pc ≠ .ready ∧ x.pc ≠ .sndres
  · obtain ⟨x, hx, hend, hready, hsndres⟩ := hgoes
    exact h.xfer_helpful hpages hx hend (fun hpc => absurd hpc hready) (fun hpc => absurd hpc hsndres)
  push Not at hgoes
  have hwaiting : Waiting s := by
    refine ⟨fun x hx => ?_, fun w hw => ⟨(hbusy w hw).1, Bool.not_eq_true _ ▸ (hbusy w hw).2⟩⟩
    by_cases hend : x.pc.Ended
    · exact Or.inr (Or.inr (Xfer.Pc.ended_iff.1 hend))
    · exact or_iff_not_imp_left.2 fun hready => Or.inl (hgoes x hx hend hready)
  obtain ⟨x, hx, hend⟩ := hopen
  obtain hpc | hpc | hdone := hwaiting.xfers x hx
  · exact h.xfer_helpful hpages hx hend (fun _ => h.ready_ne hwaiting hdaemons)
      (fun hpc' => by rw [hpc] at hpc'; cases hpc')
  · obtain ⟨y, hy, hpc', hhead⟩ := h.head_waited hwaiting hx hpc
    exact h.xfer_helpful hpages hy (by simp [hpc', Xfer.Pc.Ended]) (fun hready => by rw [hpc'] at hready; cases hready)
      (fun _ => hhead)
  · exact absurd (Xfer.Pc.ended_iff.2 hdone) hend

/-! ## All transfers can end -/

theorem Xfer.ended_calm (h : Calm img bmpsz s) {x : Xfer} (hx : x ∈ s.xfers) (hend : x.pc.Ended) : x.pc = .done 0 := by
  obtain ⟨err, hpc⟩ := Xfer.Pc.ended_iff.1 hend
  rw [hpc, (h.xfers x hx).done err hpc]

/-- what is read stays what it is -/
def spans (s : Sys) : List (ℕ × ℕ) := s.xfers.map fun x => (x.start, x.size)

theorem XMove.span {P : ℕ} {x x' : Xfer} {a : XAct} (hmove : XMove P s x a t x') :
    (x'.start, x'.size) = (x.start, x.size) := by
  cases hmove <;> rfl

theorem spans_goes {a : Act} (ha : a.Goes) (hstep : step img s a = some t) : spans t = spans s := by
  cases step_cases hstep with
  | enter => obtain ⟨i, hi⟩ | ⟨pid, hpid⟩ := ha <;> contradiction
  | spawn => rfl
  | @xfer i _ x x' s' hx hmove =>
    rw [spans, spans, List.map_set, hmove.span, (hmove.account 0).1]
    have hget : (s.xfers.map fun x => (x.start, x.size))[i]? = some (x.start, x.size) := by
      rw [List.getElem?_map, hx, Option.map_some]
    obtain ⟨hlt, hget⟩ := List.getElem?_eq_some_iff.1 hget
    rw [← hget]
    exact List.set_getElem_self hlt
  | daemon hw hmove =>
    rw [spans, spans]
    dsimp only
    rw [(hmove.account 0).1]

theorem daemons_goes {a : Act} (ha : a.Goes) (hstep : step img s a = some t) :
    t.daemons.length = s.daemons.length := by
  cases step_cases hstep with
  | enter => rfl
  | spawn => obtain ⟨i, hi⟩ | ⟨pid, hpid⟩ := ha <;> contradiction
  | xfer hx hmove => cases hmove <;> simp
  | daemon hw hmove => rw [List.length_set, (hmove.account 0).2.1]

/-- by induction on what is left to do -/
theorem all_end (hpages : Pages img bmpsz) (n : ℕ) (s : Sys) (hn : s.weight.toNat ≤ n) (h : Calm img bmpsz s)
    (hdaemons : s.daemons ≠ []) :
    ∃ bs t, (∀ b ∈ bs, b.Goes) ∧ exec (step img) s bs = some t ∧ spans t = spans s ∧ Calm img bmpsz t ∧
      ∀ x ∈ t.xfers, x.pc = .done 0 := by
  induction n generalizing s with
  | zero =>
    by_cases hopen : ∃ x ∈ s.xfers, ¬x.pc.Ended
    · obtain ⟨a, t, -, -, hlighter⟩ := helpful h hpages hdaemons hopen
      have hpos := t.weight_nonneg
      omega
    · push Not at hopen
      exact ⟨[], s, nofun, rfl, rfl, h, fun x hx => Xfer.ended_calm h hx (hopen x hx)⟩
  | succ n ih =>
    by_cases hopen : ∃ x ∈ s.xfers, ¬x.pc.Ended
    · obtain ⟨a, t, ha, hstep, hlighter⟩ := helpful h hpages hdaemons hopen
      have hpos := t.weight_nonneg
      have hdaemons' : t.daemons ≠ [] := by
        rw [← List.length_pos_iff, daemons_goes ha hstep, List.length_pos_iff]
        exact hdaemons
      obtain ⟨bs, u, hbs, hrun, hspans, hcalm, hdone⟩ :=
        ih t (by omega) (step_calm hpages s a t ha.good h hstep) hdaemons'
      refine ⟨a :: bs, u, fun b hb => ?_, (exec_cons _).2 ⟨t, hstep, hrun⟩, hspans.trans (spans_goes ha hstep), hcalm,
        hdone⟩
      rcases List.mem_cons.1 hb with rfl | hb
      · exact ha
      · exact hbs b hb
    · push Not at hopen
      exact ⟨[], s, nofun, rfl, rfl, h, fun x hx => Xfer.ended_calm h hx (hopen x hx)⟩

/-- **All transfers can end**, from any state of a run in which nothing fails, as long as there is a process: without
any further transfer or process each one comes to its end and has read the image. -/
theorem reads_complete {ctl : Setbmp} {file : Bytes} (hfile : ctl.bmp = some file) {dev : Dev}
    (hset : ulo_ctl_setbmp img.PAGE_SIZE none ctl = (0, some dev)) {cache : ℕ → UInt8}
    (hcache : Reusable img file cache) (hwhole : img.PAGE_SIZE ∣ img.cache_size)
    (hcovered : Covered img.PAGE_SIZE img.cache_size file.length) {as : List Act} (hgood : ∀ a ∈ as, a.Good img)
    (hrun : exec (step img) (.init dev cache) as = some s) (hdaemons : s.daemons ≠ []) :
    ∃ bs t, (∀ b ∈ bs, b.Goes) ∧ exec (step img) s bs = some t ∧
      t.xfers.map (fun x => (x.start, x.size, x.pc, x.loop_buf)) =
        s.xfers.map fun x =>
          (x.start, x.size, .done 0, some ((List.range x.size).map fun k => img.filled (x.start + k))) := by
  obtain ⟨hbmp, hok, -⟩ := ulo_ctl_setbmp_ok img.pos hset
  obtain rfl := Option.some.inj (hfile.symm.trans hbmp)
  have hpages : Pages img dev.bmpsz := ⟨hwhole, hok.size ▸ hcovered.page⟩
  have hinit : Calm img dev.bmpsz (.init dev cache) :=
    ⟨init_inv hfile hset hcache, ⟨nofun, fun _ _ => rfl, le_rfl⟩, rfl, fun _ => rfl, rfl, nofun, nofun, nofun, nofun⟩
  have hcalm := exec_invariant_of (step img) (Act.Good img) (Calm img dev.bmpsz) (step_calm hpages) hgood hinit hrun
  obtain ⟨bs, t, hbs, hrun', hspans, hcalm', hdone⟩ := all_end hpages _ s le_rfl hcalm hdaemons
  refine ⟨bs, t, hbs, hrun', ?_⟩
  have hread : t.xfers.map (fun x => (x.start, x.size, x.pc, x.loop_buf)) = t.xfers.map fun x =>
      (x.start, x.size, .done 0, some ((List.range x.size).map fun k => img.filled (x.start + k))) := by
    refine List.map_congr_left fun x hx => ?_
    rw [hdone x hx, (hcalm'.inv.xfers x hx).copied (hdone x hx) (Or.inl (hcalm'.xfers x hx).fits.1)]
  have hspan : ∀ l : List Xfer, (l.map fun x =>
      ((x.start, x.size, .done 0, some ((List.range x.size).map fun k => img.filled (x.start + k))) :
        ℕ × ℕ × Xfer.Pc × Option Bytes)) = (l.map fun x => (x.start, x.size)).map fun p =>
      (p.1, p.2, .done 0, some ((List.range p.2).map fun k => img.filled (p.1 + k))) := fun l => by
    rw [List.map_map]
    rfl
  rw [hread, hspan, hspan]
  exact congrArg _ hspans

/-- a transfer has come, and a process -/
theorem reads_complete_six : ∃ s bs t, exec (step six_bytes) (.init six_dev fun _ => 0) [.enter 4 2, .spawn] = some s ∧
    exec (step six_bytes) s bs = some t ∧ t.xfers.map (·.loop_buf) = [some [5, 6]] := by
  obtain ⟨s, hrun, hdaemons, hxfers⟩ : ∃ s,
      exec (step six_bytes) (.init six_dev fun _ => 0) [.enter 4 2, .spawn] = some s ∧
        s.daemons = [⟨.top, false⟩] ∧ s.xfers = [.init 4 2] := ⟨_, rfl, rfl, rfl⟩
  have hgood : ∀ a ∈ [Act.enter 4 2, .spawn], a.Good six_bytes := by
    simp [Act.Good, Fits, Image.cache_size, six_bytes, round_up]
  have hwhole : six_bytes.PAGE_SIZE ∣ six_bytes.cache_size := by decide
  have hcovered : Covered 4 8 4 := (covered_iff (by decide)).2 (by decide)
  obtain ⟨bs, t, -, hrun', hread⟩ := reads_complete rfl six_set six_reusable hwhole hcovered hgood hrun
    (by rw [hdaemons]; decide)
  refine ⟨s, bs, t, hrun, hrun', ?_⟩
  have hbufs := congrArg (List.map fun p => p.2.2.2) hread
  rw [hxfers, List.map_map] at hbufs
  exact hbufs

end AufsUtil.Uloop.Requests
