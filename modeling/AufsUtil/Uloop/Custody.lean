/-
The requests and the signals of uloop are not lost, nor is one there twice.

A request is created with the transfer that waits for it, goes from hand to hand, and ends when a transfer that waits
for this page takes it back: so there are as many requests for a page as transfers that wait for it. It is lost with a
process that ends while it has it, and it is left over by a transfer that gives up.

An element of READY is a process that waits, and it is taken by one transfer, which sends one signal. So a signal never
finds one that is still pending, and a process that is woken finds a request.

- `requests_conserved`: the account of the requests for a page over any run.
- `signals_sound`: the same of the elements of READY, the signals and RCVREQ, unless signals come from elsewhere.
-/
import Mathlib.Tactic
import AufsUtil.Lib.Parties
import AufsUtil.Uloop.Coherence

namespace AufsUtil.Uloop.Requests

open AufsUtil.CStr AufsUtil.Bitmap AufsUtil.Runs AufsUtil.Parties

variable {img : Image} {s t : Sys}

/-! ## The requests for a page -/

/-- the requests that begin at k -/
def queued (k : ℕ) (q : List Req) : ℤ := total (fun e => if e.start = k then 1 else 0) q

/-- a request has been created for this transfer, and is not taken back -/
def Xfer.waits (k : ℕ) (x : Xfer) : ℤ :=
  match x.pc with
  | .kill _ | .sndres | .back _ => if x.pos = k then 1 else 0
  | _ => 0

/-- the element that is to be returned -/
def Xfer.hand (k : ℕ) (x : Xfer) : ℤ :=
  match x.pc with
  | .back e => if e.start = k then 1 else 0
  | _ => 0

def Daemon.hand (k : ℕ) (w : Daemon) : ℤ :=
  match w.pc with
  | .store e | .answer e => if e.start = k then 1 else 0
  | _ => 0

/-- wherever they are -/
def Sys.requests (k : ℕ) (s : Sys) : ℤ :=
  queued k s.rcvreq + queued k s.sndres + total (Daemon.hand k) s.daemons + total (Xfer.hand k) s.xfers

def Sys.waiting (k : ℕ) (s : Sys) : ℤ := total (Xfer.waits k) s.xfers

/-- what a process has when it ends -/
def lost (k : ℕ) (s : Sys) (a : Act) (t : Sys) : ℤ :=
  match a with
  | .daemon pid _ =>
    match s.daemons[pid]?, t.daemons[pid]? with
    | some w, some w' => if w'.pc = .dead then w.hand k else 0
    | _, _ => 0
  | _ => 0

def Xfer.Pc.Ended : Xfer.Pc → Prop
  | .done _ => True
  | _ => False

theorem Xfer.Pc.ended_iff {pc : Xfer.Pc} : pc.Ended ↔ ∃ err, pc = .done err := by
  cases pc with
  | done err => exact iff_of_true trivial ⟨err, rfl⟩
  | _ => exact iff_of_false id (by simp)

instance (pc : Xfer.Pc) : Decidable pc.Ended := by
  unfold Xfer.Pc.Ended
  split <;> infer_instance

/-- a transfer that waits ends -/
def left (k : ℕ) (s : Sys) (a : Act) (t : Sys) : ℤ :=
  match a with
  | .xfer i _ =>
    match s.xfers[i]?, t.xfers[i]? with
    | some x, some x' => if x'.pc.Ended then x.waits k else 0
    | _, _ => 0
  | _ => 0

/-- what a transfer has and what it waits for -/
def Xfer.account (k : ℕ) (x : Xfer) : ℤ := x.hand k - x.waits k

/-- what there is outside of the transfers -/
def Sys.outside (k : ℕ) (s : Sys) : ℤ := queued k s.rcvreq + queued k s.sndres + total (Daemon.hand k) s.daemons

theorem queued_concat (k : ℕ) (q : List Req) (e : Req) :
    queued k (q ++ [e]) = queued k q + if e.start = k then 1 else 0 := total_concat _ q e

theorem queued_cons (k : ℕ) (e : Req) (q : List Req) :
    queued k (e :: q) = (if e.start = k then 1 else 0) + queued k q := total_cons _ e q

/-- **A step of a transfer** moves a request, creates one with the wait for it, or ends both; or it leaves one over. -/
theorem XMove.account {P : ℕ} {x x' : Xfer} {a : XAct} (hmove : XMove P s x a t x') (k : ℕ) :
    t.xfers = s.xfers ∧ t.outside k + x'.account k =
      s.outside k + x.account k + if x'.pc.Ended then x.waits k else 0 := by
  cases hmove with
  | copy hpc _ | untested hpc _ _ _ | unmarked hpc _ _ =>
    simp [Xfer.account, Xfer.hand, Xfer.waits, Sys.outside, Xfer.Pc.Ended, hpc]
  | hit hpc _ _ _ | mark hpc _ =>
    simp [Xfer.account, Xfer.hand, Xfer.waits, Sys.outside, Xfer.Pc.Ended, Xfer.next, hpc]
  | miss hpc _ _ _ | take hpc _ =>
    simp [Xfer.account, Xfer.hand, Xfer.waits, Sys.outside, Xfer.Pc.Ended, hpc]
  | post hpc =>
    simp only [Xfer.account, Xfer.hand, Xfer.waits, Sys.outside, Xfer.Pc.Ended, hpc, queued_concat, Xfer.req, if_false]
    exact ⟨trivial, by ring⟩
  | @signal _ pid w hpc hw _ =>
    have hhand : total (Daemon.hand k) (s.daemons.set pid { w with pending := true }) =
        total (Daemon.hand k) s.daemons :=
      (total_set _ hw _).trans (by rw [Daemon.hand, Daemon.hand, sub_self, add_zero])
    simp only [Xfer.account, Xfer.hand, Xfer.waits, Sys.outside, Xfer.Pc.Ended, hpc, hhand, if_false, add_zero]
    exact ⟨trivial, trivial⟩
  | gone hpc _ =>
    simp [Xfer.account, Xfer.hand, Xfer.waits, Sys.outside, Xfer.Pc.Ended, hpc]
  | mine hpc hq =>
    simp only [Xfer.account, Xfer.hand, Xfer.waits, Sys.outside, Xfer.Pc.Ended, hpc, hq, queued_cons, Xfer.req,
      if_false]
    exact ⟨trivial, by ring⟩
  | other hpc hq _ =>
    simp only [Xfer.account, Xfer.hand, Xfer.waits, Sys.outside, Xfer.Pc.Ended, hpc, hq, queued_cons, if_false]
    exact ⟨trivial, by ring⟩
  | back hpc =>
    simp only [Xfer.account, Xfer.hand, Xfer.waits, Sys.outside, Xfer.Pc.Ended, hpc, queued_concat, if_false]
    exact ⟨trivial, by ring⟩
  | interrupt hpc =>
    rcases hpc with hpc | hpc <;> simp [Xfer.account, Xfer.hand, Xfer.waits, Sys.outside, Xfer.Pc.Ended, hpc]

/-- **A step of a process** moves a request, or ends the process with it. -/
theorem DMove.account {pid : ℕ} {w w' : Daemon} {a : DAct} (hmove : DMove img s pid w a t w') (k : ℕ) :
    t.xfers = s.xfers ∧ t.daemons = s.daemons ∧
      queued k t.rcvreq + queued k t.sndres + w'.hand k + (if w'.pc = .dead then w.hand k else 0) =
        queued k s.rcvreq + queued k s.sndres + w.hand k := by
  cases hmove with
  | ready hpc | wake hpc _ | enxio hpc _ | unstored hpc _ | stored hpc _ => simp [Daemon.hand, hpc]
  | rcvreq hpc hq =>
    simp only [Daemon.hand, hpc, hq, queued_cons, reduceCtorEq, if_false]
    exact ⟨trivial, trivial, by ring⟩
  | sndres hpc =>
    simp only [Daemon.hand, hpc, queued_concat, reduceCtorEq, if_false]
    exact ⟨trivial, trivial, by ring⟩
  | part hpc _ => simp [hpc]
  | efault hpc hq =>
    simp only [Daemon.hand, hpc, hq, queued_cons, queued_concat, if_true]
    exact ⟨trivial, trivial, by ring⟩
  | die _ => simp [Daemon.hand]
  | stray hpc => simp [Daemon.hand, hpc]

theorem Sys.balance (k : ℕ) (s : Sys) :
    s.requests k - s.waiting k = s.outside k + total (Xfer.account k) s.xfers := by
  have haccount : ∀ l : List Xfer, total (Xfer.account k) l = total (Xfer.hand k) l - total (Xfer.waits k) l := by
    intro l
    induction l with
    | nil => rfl
    | cons x l ih =>
      rw [total_cons, total_cons, total_cons, ih, Xfer.account]
      ring
  rw [haccount, Sys.requests, Sys.waiting, Sys.outside]
  ring

theorem step_account (k : ℕ) (s : Sys) (a : Act) (t : Sys) (h : step img s a = some t) :
    t.requests k - t.waiting k + lost k s a t = s.requests k - s.waiting k + left k s a t := by
  rw [Sys.balance, Sys.balance]
  cases step_cases h with
  | enter =>
    simp only [lost, left, Sys.outside, total_concat, Xfer.init, Xfer.account, Xfer.hand, Xfer.waits]
    ring
  | spawn =>
    simp only [lost, left, Sys.outside, total_concat, Daemon.hand]
    ring
  | @xfer i _ x x' s' hx hmove =>
    obtain ⟨hxfers, haccount⟩ := hmove.account k
    have hx' : (s.xfers.set i x')[i]? = some x' := List.getElem?_set_self (List.getElem?_eq_some_iff.1 hx).1
    have hout : Sys.outside k { s' with xfers := s.xfers.set i x' } = s'.outside k := rfl
    simp only [lost, left, hx, hx', hout, hxfers, total_set _ hx]
    linarith
  | @daemon pid _ w w' s' hw hmove =>
    obtain ⟨hxfers, hdaemons, haccount⟩ := hmove.account k
    have hw' : (s.daemons.set pid w')[pid]? = some w' := List.getElem?_set_self (List.getElem?_eq_some_iff.1 hw).1
    simp only [lost, left, hw, hw', Sys.outside, hxfers, hdaemons, total_set _ hw]
    linarith

/-- **The account of the requests for a page**: what is anywhere and what was lost with a process is as much as what
transfers wait for and what they have left over. -/
theorem requests_conserved {dev : Dev} {cache : ℕ → UInt8} {as : List Act}
    (hrun : exec (step img) (.init dev cache) as = some s) (k : ℕ) :
    s.requests k + gain (step img) (lost k) (.init dev cache) as =
      s.waiting k + gain (step img) (left k) (.init dev cache) as := by
  have hbalance := exec_balance (step img) (fun s => s.requests k - s.waiting k) _ _ (step_account k) hrun
  have hinit : (Sys.init dev cache).requests k - (Sys.init dev cache).waiting k = 0 := rfl
  rw [hinit] at hbalance
  linarith

/-- the process ends after it has taken the request -/
def six_died : List Act := six_acts.take 9 ++ [.daemon 0 .die]

theorem requests_conserved_lost : ∃ s, exec (step six_bytes) (.init six_dev fun _ => 0) six_died = some s ∧
    s.requests 4 = 0 ∧ s.waiting 4 = 1 ∧
    s.requests 4 + 1 = s.waiting 4 + gain (step six_bytes) (left 4) (.init six_dev fun _ => 0) six_died := by
  obtain ⟨s, hrun, hrequests, hwaiting⟩ : ∃ s, exec (step six_bytes) (.init six_dev fun _ => 0) six_died = some s ∧
      s.requests 4 = 0 ∧ s.waiting 4 = 1 := ⟨_, rfl, rfl, rfl⟩
  have hlost : gain (step six_bytes) (lost 4) (.init six_dev fun _ => 0) six_died = 1 := rfl
  exact ⟨s, hrun, hrequests, hwaiting, hlost ▸ requests_conserved hrun 4⟩

/-! ## The signals -/

def named (pid : ℕ) (q : List ℕ) : ℤ := total (fun p => if p = pid then 1 else 0) q

/-- the element of this process is taken, and its signal is not sent -/
def Xfer.calls (pid : ℕ) (x : Xfer) : ℤ :=
  match x.pc with
  | .post p | .kill p => if p = pid then 1 else 0
  | _ => 0

/-- the elements of READY for a process, taken or not -/
def Sys.calls (pid : ℕ) (s : Sys) : ℤ := named pid s.ready + total (Xfer.calls pid) s.xfers

def Daemon.ring (w : Daemon) : ℤ := if w.pending then 1 else 0

/-- a signal is to come -/
def Daemon.due (w : Daemon) : ℤ := if w.pc = .wait then 1 else 0

/-- a request is in RCVREQ, and its signal is not sent -/
def Xfer.kills (x : Xfer) : ℤ :=
  match x.pc with
  | .kill _ => 1
  | _ => 0

/-- a request is to be taken from RCVREQ -/
def Daemon.called (w : Daemon) : ℤ :=
  match w.pc with
  | .woken => 1
  | .wait => w.ring
  | _ => 0

/-- what all steps keep of the signals -/
structure Signals (s : Sys) : Prop where
  one : ∀ pid w, s.daemons[pid]? = some w → w.pc ≠ .dead → s.calls pid + w.ring = w.due
  nobody : ∀ pid, s.daemons[pid]? = none → s.calls pid = 0
  found : total Xfer.kills s.xfers + total Daemon.called s.daemons ≤ s.rcvreq.length

theorem Xfer.calls_nonneg (pid : ℕ) (x : Xfer) : 0 ≤ x.calls pid := by
  unfold Xfer.calls
  split <;> first | split_ifs <;> decide | exact le_rfl

theorem Xfer.kills_nonneg (x : Xfer) : 0 ≤ x.kills := by
  unfold Xfer.kills
  split <;> decide

theorem Daemon.ring_nonneg (w : Daemon) : 0 ≤ w.ring := by
  unfold Daemon.ring
  split_ifs <;> decide

theorem Daemon.called_nonneg (w : Daemon) : 0 ≤ w.called := by
  unfold Daemon.called
  split
  · decide
  · exact w.ring_nonneg
  · exact le_rfl

theorem named_concat (pid : ℕ) (q : List ℕ) (p : ℕ) : named pid (q ++ [p]) = named pid q + if p = pid then 1 else 0 :=
  total_concat _ q p

theorem named_cons (pid p : ℕ) (q : List ℕ) : named pid (p :: q) = (if p = pid then 1 else 0) + named pid q :=
  total_cons _ p q

theorem named_nonneg (pid : ℕ) (q : List ℕ) : 0 ≤ named pid q :=
  total_nonneg _ (fun p => by split_ifs <;> decide) q

/-- a transfer that has taken an element accounts for the process -/
theorem le_calls {x : Xfer} (hx : x ∈ s.xfers) (pid : ℕ) : named pid s.ready + x.calls pid ≤ s.calls pid :=
  add_le_add_right (le_total _ (Xfer.calls_nonneg pid) hx) _

theorem calls_nonneg (s : Sys) (pid : ℕ) : 0 ≤ s.calls pid :=
  add_nonneg (named_nonneg pid s.ready) (total_nonneg _ (Xfer.calls_nonneg pid) s.xfers)

/-- a signal is pending only where one is waited for -/
theorem Signals.ring_of_ne (h : Signals s) {pid : ℕ} {w : Daemon} (hw : s.daemons[pid]? = some w)
    (hlive : w.pc ≠ .dead) (hne : w.pc ≠ .wait) : w.ring = 0 := by
  have hone := h.one pid w hw hlive
  rw [Daemon.due, if_neg hne] at hone
  linarith [calls_nonneg s pid, w.ring_nonneg]

/-- a process whose element is taken waits, and no signal is pending -/
theorem Signals.wait_of_kill (h : Signals s) {x : Xfer} (hx : x ∈ s.xfers) {pid : ℕ} (hpc : x.pc = .kill pid)
    {w : Daemon} (hw : s.daemons[pid]? = some w) (hlive : w.pc ≠ .dead) : w.pc = .wait ∧ w.pending = false := by
  have hone := h.one pid w hw hlive
  have hcalls := le_calls hx pid
  have hnamed := named_nonneg pid s.ready
  have hring := w.ring_nonneg
  rw [Xfer.calls, hpc] at hcalls
  simp only [if_true] at hcalls
  have hwait : w.pc = .wait := by
    by_contra hne
    rw [Daemon.due, if_neg hne] at hone
    linarith
  refine ⟨hwait, ?_⟩
  cases hpending : w.pending with
  | false => rfl
  | true =>
    rw [Daemon.ring, Daemon.due, hpending, if_pos rfl, if_pos hwait] at hone
    linarith

/-- a transfer goes on without a signal -/
theorem Signals.put_xfer (h : Signals s) {i : ℕ} {x x' : Xfer} (hx : s.xfers[i]? = some x) (hxfers : t.xfers = s.xfers)
    (hdaemons : t.daemons = s.daemons) (hcalls : ∀ p, named p t.ready + x'.calls p = named p s.ready + x.calls p)
    (hfound : x'.kills + s.rcvreq.length ≤ x.kills + t.rcvreq.length) :
    Signals { t with xfers := t.xfers.set i x' } := by
  have hsame : ∀ p, Sys.calls p { t with xfers := t.xfers.set i x' } = s.calls p := by
    intro p
    rw [Sys.calls, Sys.calls, hxfers, total_set _ hx]
    linarith [hcalls p]
  refine ⟨fun pid w hw hlive => ?_, fun pid hnone => ?_, ?_⟩
  · rw [hsame]
    exact h.one pid w (hdaemons ▸ hw) hlive
  · rw [hsame]
    exact h.nobody pid (hdaemons ▸ hnone)
  · have hbefore := h.found
    dsimp only
    rw [hdaemons, hxfers, total_set _ hx]
    linarith

/-- a transfer whose process is gone -/
theorem Signals.gone (h : Signals s) {i : ℕ} {x : Xfer} (hx : s.xfers[i]? = some x) {pid : ℕ} (hpc : x.pc = .kill pid)
    (hgone : ∀ w, s.daemons[pid]? = some w → w.pc = .dead) (err : ℤ) :
    Signals { s with xfers := s.xfers.set i { x with pc := .done err } } := by
  have hcalls : ∀ p, Sys.calls p { s with xfers := s.xfers.set i { x with pc := .done err } } =
      s.calls p - if pid = p then 1 else 0 := by
    intro p
    rw [Sys.calls, Sys.calls, total_set _ hx, Xfer.calls, Xfer.calls, hpc]
    ring
  refine ⟨fun p w hw hlive => ?_, fun p hnone => ?_, ?_⟩
  · have hne : pid ≠ p := fun heq => hlive (hgone w (heq ▸ hw))
    rw [hcalls, if_neg hne, sub_zero]
    exact h.one p w hw hlive
  · have hzero := h.nobody p hnone
    have hle := le_calls (List.mem_of_getElem? hx) p
    have hnamed := named_nonneg p s.ready
    rw [Xfer.calls, hpc] at hle
    rw [hcalls, hzero]
    split_ifs with heq
    · simp only [if_pos heq] at hle
      linarith
    · rfl
  · have hbefore := h.found
    dsimp only
    rw [total_set _ hx, Xfer.kills, Xfer.kills, hpc]
    linarith

/-- **The signal is sent**: the process waits for it, and a request is there. -/
theorem Signals.signal (h : Signals s) {i : ℕ} {x : Xfer} (hx : s.xfers[i]? = some x) {pid : ℕ} (hpc : x.pc = .kill pid)
    {w : Daemon} (hw : s.daemons[pid]? = some w) (hlive : w.pc ≠ .dead) :
    Signals { s with
      daemons := s.daemons.set pid { w with pending := true }, xfers := s.xfers.set i { x with pc := .sndres } } := by
  obtain ⟨hwait, hpending⟩ := h.wait_of_kill (List.mem_of_getElem? hx) hpc hw hlive
  have hcalls : ∀ p, Sys.calls p { s with
      daemons := s.daemons.set pid { w with pending := true }, xfers := s.xfers.set i { x with pc := .sndres } } =
      s.calls p - if pid = p then 1 else 0 := by
    intro p
    rw [Sys.calls, Sys.calls, total_set _ hx, Xfer.calls, Xfer.calls, hpc]
    ring
  have hlen := (List.getElem?_eq_some_iff.1 hw).1
  refine ⟨fun p v hv hlive' => ?_, fun p hnone => ?_, ?_⟩
  · rw [hcalls]
    by_cases heq : pid = p
    · subst heq
      have hone := h.one pid w hw hlive
      rw [List.getElem?_set_self hlen] at hv
      obtain rfl := Option.some.inj hv
      rw [if_pos rfl]
      simp only [Daemon.ring, Daemon.due, hwait, hpending, if_true, Bool.false_eq_true, if_false] at hone ⊢
      linarith
    · rw [List.getElem?_set_ne heq] at hv
      rw [if_neg heq, sub_zero]
      exact h.one p v hv hlive'
  · have hne : pid ≠ p := by
      rintro rfl
      rw [List.getElem?_set_self hlen] at hnone
      cases hnone
    rw [List.getElem?_set_ne hne] at hnone
    rw [hcalls, if_neg hne, sub_zero]
    exact h.nobody p hnone
  · have hbefore := h.found
    dsimp only
    rw [total_set _ hx, total_set _ hw]
    simp only [Xfer.kills, Daemon.called, Daemon.ring, hpc, hwait, hpending, if_true, Bool.false_eq_true, if_false]
    linarith

/-- a process goes on -/
theorem Signals.put_daemon (h : Signals s) {pid : ℕ} {w w' : Daemon} (hw : s.daemons[pid]? = some w)
    (hlive : w.pc ≠ .dead) (hxfers : t.xfers = s.xfers) (hdaemons : t.daemons = s.daemons)
    (hready : ∀ p, pid ≠ p → named p t.ready = named p s.ready)
    (hone : w'.pc ≠ .dead → named pid t.ready + w'.ring - w'.due = named pid s.ready + w.ring - w.due)
    (hfound : w'.called + s.rcvreq.length ≤ w.called + t.rcvreq.length) :
    Signals { t with daemons := t.daemons.set pid w' } := by
  have hlen := (List.getElem?_eq_some_iff.1 hw).1
  have hcalls : ∀ p, Sys.calls p { t with daemons := t.daemons.set pid w' } =
      s.calls p + (named p t.ready - named p s.ready) := by
    intro p
    rw [Sys.calls, Sys.calls, hxfers]
    ring
  refine ⟨fun p v hv hlive' => ?_, fun p hnone => ?_, ?_⟩
  · rw [hcalls]
    by_cases heq : pid = p
    · subst heq
      rw [hdaemons, List.getElem?_set_self hlen] at hv
      obtain rfl := Option.some.inj hv
      linarith [h.one pid w hw hlive, hone hlive']
    · rw [hdaemons, List.getElem?_set_ne heq] at hv
      rw [hready p heq, sub_self, add_zero]
      exact h.one p v hv hlive'
  · have hne : pid ≠ p := by
      rintro rfl
      rw [hdaemons, List.getElem?_set_self hlen] at hnone
      cases hnone
    rw [hdaemons, List.getElem?_set_ne hne] at hnone
    rw [hcalls, hready p hne, sub_self, add_zero]
    exact h.nobody p hnone
  · have hbefore := h.found
    dsimp only
    rw [hxfers, hdaemons, total_set _ hw]
    linarith

theorem XMove.signals {P i : ℕ} {x x' : Xfer} {a : XAct} (h : Signals s) (hx : s.xfers[i]? = some x)
    (hmove : XMove P s x a t x') : Signals { t with xfers := t.xfers.set i x' } := by
  cases hmove with
  | copy hpc _ | untested hpc _ _ _ | unmarked hpc _ _ | miss hpc _ _ _ | mine hpc _ | other hpc _ _ | back hpc =>
    exact h.put_xfer hx rfl rfl (by simp [Xfer.calls, hpc]) (by simp [Xfer.kills, hpc])
  | hit hpc _ _ _ | mark hpc _ =>
    exact h.put_xfer hx rfl rfl (by simp [Xfer.calls, Xfer.next, hpc]) (by simp [Xfer.kills, Xfer.next, hpc])
  | take hpc hq =>
    refine h.put_xfer hx rfl rfl (fun p => ?_) (by simp [Xfer.kills, hpc])
    rw [hq, named_cons, Xfer.calls, Xfer.calls, hpc]
    ring
  | post hpc =>
    refine h.put_xfer hx rfl rfl (by simp [Xfer.calls, hpc]) ?_
    simp only [Xfer.kills, hpc, List.length_append, List.length_singleton]
    push_cast
    linarith
  | signal hpc hw hlive => exact h.signal hx hpc hw hlive
  | gone hpc hgone => exact h.gone hx hpc hgone _
  | interrupt hpc =>
    rcases hpc with hpc | hpc <;>
      exact h.put_xfer hx rfl rfl (by simp [Xfer.calls, hpc]) (by simp [Xfer.kills, hpc])

theorem DMove.signals {pid : ℕ} {w w' : Daemon} {a : DAct} (h : Signals s) (hw : s.daemons[pid]? = some w)
    (hown : a ≠ .stray) (hmove : DMove img s pid w a t w') : Signals { t with daemons := t.daemons.set pid w' } := by
  cases hmove with
  | ready hpc =>
    have hring := h.ring_of_ne hw (by simp [hpc]) (by simp [hpc])
    refine h.put_daemon hw (by simp [hpc]) rfl rfl (fun p hp => ?_) (fun _ => ?_) ?_
    · rw [named_concat, if_neg hp, add_zero]
    · rw [named_concat, if_pos rfl]
      simp only [Daemon.ring, Daemon.due, hpc, reduceCtorEq, if_true, if_false]
      ring
    · have hcalled : Daemon.called { w with pc := .wait } = 0 := hring
      rw [hcalled, Daemon.called, hpc]
  | wake hpc hsig =>
    refine h.put_daemon hw (by simp [hpc]) rfl rfl (fun _ _ => rfl) (fun _ => ?_) ?_
    · simp [Daemon.ring, Daemon.due, hpc, hsig]
    · simp [Daemon.called, Daemon.ring, hpc, hsig]
  | rcvreq hpc hq =>
    refine h.put_daemon hw (by simp [hpc]) rfl rfl (fun _ _ => rfl) (fun _ => ?_) ?_
    · simp [Daemon.ring, Daemon.due, hpc]
    · simp only [Daemon.called, hpc, hq, List.length_cons]
      push_cast
      linarith
  | stored hpc _ | sndres hpc =>
    refine h.put_daemon hw (by simp [hpc]) rfl rfl (fun _ _ => rfl) (fun _ => ?_) (by simp [Daemon.called, hpc])
    simp [Daemon.ring, Daemon.due, hpc]
  | part hpc _ => exact h.put_daemon hw (by simp [hpc]) rfl rfl (fun _ _ => rfl) (fun _ => rfl) le_rfl
  | enxio hpc hq | unstored hpc _ =>
    exact h.put_daemon hw (by simp [hpc]) rfl rfl (fun _ _ => rfl) (fun hlive => absurd rfl hlive)
      (by simp [Daemon.called, hpc])
  | efault hpc hq =>
    exact h.put_daemon hw (by simp [hpc]) rfl rfl (fun _ _ => rfl) (fun hlive => absurd rfl hlive)
      (by simp [Daemon.called, hpc, hq])
  | die hpc =>
    exact h.put_daemon hw hpc rfl rfl (fun _ _ => rfl) (fun hlive => absurd rfl hlive)
      (add_le_add_left w.called_nonneg _)
  | stray hpc => exact absurd rfl hown

/-- no signal comes from elsewhere -/
def Act.Own (a : Act) : Prop := ∀ pid, a ≠ .daemon pid .stray

theorem step_signals (s : Sys) (a : Act) (t : Sys) (hown : a.Own) (h : Signals s) (hstep : step img s a = some t) :
    Signals t := by
  cases step_cases hstep with
  | enter =>
    refine ⟨fun pid w hw hlive => ?_, fun pid hnone => ?_, ?_⟩
    · simpa [Sys.calls, Xfer.init, Xfer.calls] using h.one pid w hw hlive
    · simpa [Sys.calls, Xfer.init, Xfer.calls] using h.nobody pid hnone
    · simpa [Xfer.init, Xfer.kills] using h.found
  | spawn =>
    refine ⟨fun pid w hw hlive => ?_, fun pid hnone => ?_, ?_⟩
    · rcases lt_or_ge pid s.daemons.length with hlt | hge
      · exact h.one pid w (by rwa [List.getElem?_append_left hlt] at hw) hlive
      · have hnew := h.nobody pid (List.getElem?_eq_none hge)
        rw [List.getElem?_append_right hge] at hw
        obtain rfl := List.mem_singleton.1 (List.mem_of_getElem? hw)
        simpa [Sys.calls, Daemon.ring, Daemon.due] using hnew
    · refine h.nobody pid (List.getElem?_eq_none ?_)
      have hlen := List.getElem?_eq_none_iff.1 hnone
      rw [List.length_append] at hlen
      omega
    · simpa [Daemon.called] using h.found
  | xfer hx hmove => exact hmove.signals h hx
  | daemon hw hmove => exact hmove.signals h hw fun ha => hown _ (congrArg _ ha)

/-- **Signals are neither merged nor sent for nothing**, unless some come from elsewhere: when a transfer sends one, the
process waits and has none pending; a process that is woken finds a request; and one that waits will get its signal from
one that is pending, from an element in READY or from a transfer that has taken it. -/
theorem signals_sound {dev : Dev} {cache : ℕ → UInt8} {as : List Act} (hown : ∀ a ∈ as, a.Own)
    (hrun : exec (step img) (.init dev cache) as = some s) :
    (∀ x ∈ s.xfers, ∀ pid, x.pc = .kill pid → ∀ w, s.daemons[pid]? = some w → w.pc ≠ .dead →
      w.pc = .wait ∧ w.pending = false) ∧
    (∀ w ∈ s.daemons, w.pc = .woken → s.rcvreq ≠ []) ∧
    (∀ pid w, s.daemons[pid]? = some w → w.pc = .wait →
      w.pending = true ∨ pid ∈ s.ready ∨ ∃ x ∈ s.xfers, x.pc = .post pid ∨ x.pc = .kill pid) := by
  have hinit : Signals (.init dev cache) := ⟨nofun, fun _ _ => rfl, le_rfl⟩
  have h := exec_invariant_of (step img) Act.Own Signals step_signals hown hinit hrun
  refine ⟨fun x hx pid hpc w hw hlive => h.wait_of_kill hx hpc hw hlive, fun w hw hpc hempty => ?_,
    fun pid w hw hpc => ?_⟩
  · have hfound := h.found
    have hcalled := le_total _ Daemon.called_nonneg hw
    have hkills := total_nonneg _ Xfer.kills_nonneg s.xfers
    rw [Daemon.called, hpc] at hcalled
    rw [hempty] at hfound
    simp only [List.length_nil, Nat.cast_zero] at hfound
    linarith
  · have hone := h.one pid w hw (by simp [hpc])
    rw [Daemon.due, if_pos hpc, Daemon.ring] at hone
    by_cases hpending : w.pending = true
    · exact Or.inl hpending
    rw [if_neg hpending, add_zero, Sys.calls] at hone
    by_cases hready : 0 < named pid s.ready
    · obtain ⟨p, hp, hpos⟩ := exists_of_total_pos _ hready
      split_ifs at hpos with heq
      · exact Or.inr (Or.inl (heq ▸ hp))
      · exact absurd hpos (lt_irrefl _)
    · have hpos : 0 < total (Xfer.calls pid) s.xfers := by linarith
      obtain ⟨x, hx, hcall⟩ := exists_of_total_pos _ hpos
      refine Or.inr (Or.inr ⟨x, hx, ?_⟩)
      unfold Xfer.calls at hcall
      split at hcall
      · next p hpost =>
        split_ifs at hcall with heq
        · exact Or.inl (heq ▸ hpost)
        · exact absurd hcall (lt_irrefl _)
      · next p hkill =>
        split_ifs at hcall with heq
        · exact Or.inr (heq ▸ hkill)
        · exact absurd hcall (lt_irrefl _)
      · exact absurd hcall (lt_irrefl _)

/-- the process is woken -/
theorem signals_sound_woken : ∃ s, exec (step six_bytes) (.init six_dev fun _ => 0) (six_acts.take 8) = some s ∧
    s.daemons = [⟨.woken, false⟩] ∧ s.rcvreq ≠ [] := by
  obtain ⟨s, hrun, hdaemons⟩ : ∃ s, exec (step six_bytes) (.init six_dev fun _ => 0) (six_acts.take 8) = some s ∧
      s.daemons = [⟨.woken, false⟩] := ⟨_, rfl, rfl⟩
  have hown : ∀ a ∈ six_acts.take 8, a.Own := by simp [six_acts, Act.Own]
  refine ⟨s, hrun, hdaemons, (signals_sound hown hrun).2.1 ⟨.woken, false⟩ ?_ rfl⟩
  rw [hdaemons]
  exact List.mem_singleton_self _

end AufsUtil.Uloop.Requests
