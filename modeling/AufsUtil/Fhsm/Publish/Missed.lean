/-
No change of the table is missed (`Fhsm/Publish/Model.lean`): the daemon opens the fifo before it loads, and the
controllers write to it after they have closed.

- `Told`: what the daemon has is current, or it is about to get something.
- `told_step`: every step keeps that, if all calls succeed and a controller that writes nothing changes nothing.
- `nothing_missed`: when all is quiet the daemon has the table of the name.
-/
import Mathlib.Tactic
import AufsUtil.Fhsm.Publish.Invariant

namespace AufsUtil.Fhsm.Publish

open AufsUtil.CStr AufsUtil.SortSearch AufsUtil.Runs
open AufsUtil.Fhsm.Reload (LoadSys au_fhsm_load)

variable {F : Type} {fl : Floats F} {qs : Qsort bridOrd (Wmark.brid (F := F))} {qp : Qsort strcmp Brinfo.path}
  {bp : Bsearch strcmp Brinfo.path} {shm : Option (Aufhsm F)} {s : Sys F}

/-- the table of the name -/
def Sys.named (s : Sys F) : Option (Aufhsm F) := s.name.bind s.content

variable (fl qs qp bp) in
/-- every call of the process succeeds and no argument is rejected; and a controller that will not write to the fifo has
nothing to change -/
def Succeeds (s : Sys F) : Act F → Prop
  | .enter _ j => 2 ≤ au_nfhsm j.brinfo
  | .map _ ok => ok = true ∧ s.name ≠ none
  | .work p junk => ∀ made id, s.pc p = .locked made id →
      (work fl qs s p made id junk).pc p = .working id (s.job p).args ∧
        ((s.job p).notify = false → (work fl qs s p made id junk).content id = s.content id)
  | .arg p => ∀ id str rest, s.pc p = .working id (str :: rest) →
      (arg fl qp bp s p id str rest).pc p = .working id rest
  | .clean _ => False
  | .create _ ok | .lock _ ok | .close _ ok | .tell _ ok | .dopen ok | .dlock ok => ok = true
  | .dread sys => sys.Ok
  | _ => True

/-- this controller will write to the fifo -/
def Sys.Pending (s : Sys F) (p : ℕ) : Prop := (s.pc p).under_way = true ∧ (s.job p).notify = true

/-- what the daemon has, or is about to get, is the table of the name -/
def Sys.Current (s : Sys F) : Prop :=
  match s.dpc with
  | .down | .loading _ => True
  | .locking _ id | .locked _ id => s.name = some id
  | .waiting => s.lcopy = s.named

variable (fl) in
structure Told (s : Sys F) : Prop where
  current : s.Current ∨ (∃ p, s.Pending p) ∨ 0 < s.fifo
  signed : ∀ id t, s.content id = some t → (∀ p rest, s.pc p ≠ .working id rest) → au_fhsm_sign_verify fl t = true
  silent : ∀ p id rest, s.pc p = .working id rest → (s.job p).notify = false →
    rest = [] ∧ (s.content id).map (au_fhsm_sign fl) = s.content id

theorem init_told {j : ℕ → Job} (hshm : ∀ t, shm = some t → au_fhsm_sign_verify fl t = true) :
    Told fl (Sys.init shm j) where
  current := Or.inl trivial
  signed id t ht _ := by
    by_cases hid : id = 0
    · exact hshm t (by rw [← ht]; exact (if_pos hid).symm)
    · rw [show (Sys.init shm j).content id = none from if_neg hid] at ht
      cases ht
  silent _ _ _ h := by cases h

theorem au_fhsm_signed {sys : ShmSys} {n : ℕ} {brinfo : List Brinfo} {c : Option (Aufhsm F)} {t : Aufhsm F}
    (h : au_fhsm fl qs sys c n brinfo = .ret 0 (some t)) : ∃ u, t = au_fhsm_sign fl u := by
  cases c with
  | none =>
    unfold au_fhsm at h
    dsimp only at h
    split_ifs at h
    · cases h
    · cases h
      exact ⟨_, rfl⟩
  | some v =>
    unfold au_fhsm at h
    dsimp only at h
    split_ifs at h
    · cases h
    · split at h
      · cases h
      · split_ifs at h with herr
        · cases h
          exact absurd rfl herr
        · cases h
          exact ⟨_, rfl⟩

/-- when the arguments come, the table is signed -/
theorem work_signed {p id : ℕ} {made : Bool} {junk : Option (Aufhsm F)} {rest : List Bytes}
    (h : (work fl qs s p made id junk).pc p = .working id rest) :
    ∃ u, (work fl qs s p made id junk).content id = some (au_fhsm_sign fl u) := by
  rw [work] at h ⊢
  by_cases hfound : (!made && (s.content id).isNone) = true
  · rw [if_pos hfound, Sys.leave, go_pc] at h
    cases h
  · rw [if_neg hfound] at h ⊢
    dsimp only at h ⊢
    split at h
    · rw [Sys.leave, go_pc] at h
      cases h
    · rw [Sys.leave, go_pc] at h
      cases h
    · next err c hres =>
      by_cases herr : err ≠ 0
      · rw [if_pos herr, Sys.leave, go_pc] at h
        cases made <;> cases h
      · rw [if_neg herr] at h
        by_cases hstop : (!(s.job p).sys.calloc || c.isNone) = true
        · rw [if_pos hstop, Sys.leave, go_pc] at h
          cases h
        · rw [if_neg herr, if_neg hstop]
          have herr0 : err = 0 := not_not.1 herr
          cases c with
          | none => exact absurd (Bool.or_true _) hstop
          | some t =>
            rw [herr0] at hres
            obtain ⟨u, rfl⟩ := au_fhsm_signed hres
            exact ⟨u, by simp [Sys.go, Sys.put]⟩

/-- a controller that will write to the fifo goes on, or ends without having changed anything -/
theorem told_ctl (h : Told fl s) {p : ℕ} {t : Sys F} (hk : CtlKeeps p s t) (hfifo : s.fifo ≤ t.fifo)
    (hp : s.Pending p → t.Pending p ∨ t.Current ∨ 0 < t.fifo)
    (hcurrent : s.Current → ¬s.Pending p → t.Current ∨ t.Pending p)
    (hsigned : ∀ id u, t.content id = some u → (∀ q rest, t.pc q ≠ .working id rest) →
      au_fhsm_sign_verify fl u = true)
    (hsilent : ∀ q id rest, t.pc q = .working id rest → (t.job q).notify = false →
      rest = [] ∧ (t.content id).map (au_fhsm_sign fl) = t.content id) : Told fl t where
  current := by
    have hother : ∀ q, q ≠ p → s.Pending q → t.Pending q := by
      intro q hqp hq
      rw [Sys.Pending, hk.pc q hqp, hk.job q hqp]
      exact hq
    by_cases hmine : s.Pending p
    · rcases hp hmine with hpend | hcur | hlt
      · exact Or.inr (Or.inl ⟨p, hpend⟩)
      · exact Or.inl hcur
      · exact Or.inr (Or.inr hlt)
    · rcases h.current with hcur | ⟨q, hq⟩ | hlt
      · rcases hcurrent hcur hmine with hcur | hpend
        · exact Or.inl hcur
        · exact Or.inr (Or.inl ⟨p, hpend⟩)
      · have hqp : q ≠ p := fun heq => hmine (heq ▸ hq)
        exact Or.inr (Or.inl ⟨q, hother q hqp hq⟩)
      · exact Or.inr (Or.inr (lt_of_lt_of_le hlt hfifo))
  signed := hsigned
  silent := hsilent

theorem current_congr {t : Sys F} (hdpc : t.dpc = s.dpc) (hlcopy : t.lcopy = s.lcopy)
    (hname : t.name = s.name ∨ s.name = none) (hnamed : t.named = s.named) (h : s.Current) : t.Current := by
  have hopened : ∀ id, s.name = some id → t.name = some id := by
    intro id hid
    rcases hname with hname | hname
    · rw [hname, hid]
    · rw [hname] at hid
      cases hid
  rw [Sys.Current] at h ⊢
  rw [hdpc]
  cases hd : s.dpc with
  | down => trivial
  | loading first => trivial
  | locking first id =>
    rw [hd] at h
    exact hopened id h
  | locked first id =>
    rw [hd] at h
    exact hopened id h
  | waiting =>
    rw [hd] at h
    rw [hlcopy, hnamed]
    exact h

/-- a controller goes on and touches no table -/
theorem told_quiet (h : Told fl s) {p : ℕ} {t : Sys F} (hk : CtlKeeps p s t) (hfifo : s.fifo ≤ t.fifo)
    (hcontent : t.content = s.content) (hfrom : ∀ id rest, s.pc p ≠ .working id rest)
    (hto : ∀ id rest, t.pc p ≠ .working id rest) (hp : s.Pending p → t.Pending p ∨ t.Current ∨ 0 < t.fifo)
    (hcurrent : s.Current → ¬s.Pending p → t.Current ∨ t.Pending p) : Told fl t := by
  have hworking : ∀ q id rest, t.pc q = .working id rest → q ≠ p ∧ s.pc q = .working id rest := by
    intro q id rest hq
    have hqp : q ≠ p := fun heq => hto id rest (heq ▸ hq)
    exact ⟨hqp, hk.pc q hqp ▸ hq⟩
  refine told_ctl h hk hfifo hp hcurrent (fun id u hu hno => ?_) fun q id rest hq hnotify => ?_
  · refine h.signed id u (hcontent ▸ hu) fun q rest hq => ?_
    have hqp : q ≠ p := fun heq => hfrom id rest (heq ▸ hq)
    exact hno q rest ((hk.pc q hqp).trans hq)
  · obtain ⟨hqp, hq⟩ := hworking q id rest hq
    rw [hcontent]
    exact h.silent q id rest hq (hk.job q hqp ▸ hnotify)

/-- a controller changes the table that it has -/
theorem told_put (hi : Inv fl qs qp bp shm s) (h : Told fl s) {p id : ℕ} {t : Sys F} (hk : CtlKeeps p s t)
    (hfifo : t.fifo = s.fifo) (hname : t.name = s.name) (hjob : t.job p = s.job p) (hp : (s.pc p).holds = some id)
    (hway : (t.pc p).under_way = true) (hcontent : ∀ i, i ≠ id → t.content i = s.content i)
    (hquiet : (s.job p).notify = false → t.content id = s.content id)
    (hto : ∀ i rest, t.pc p = .working i rest → i = id)
    (hsigned : ∀ u, t.content id = some u → (∀ rest, t.pc p ≠ .working id rest) → au_fhsm_sign_verify fl u = true)
    (hsilent : ∀ rest, t.pc p = .working id rest → (s.job p).notify = false →
      rest = [] ∧ (t.content id).map (au_fhsm_sign fl) = t.content id) : Told fl t := by
  have hother : ∀ q i, q ≠ p → (s.pc q).holds = some i → i ≠ id := by
    rintro q i hqp hq rfl
    have heq := ((hi.holds q i).1 hq).symm.trans ((hi.holds p i).1 hp)
    cases heq
    exact hqp rfl
  have hnotify : ¬s.Pending p → (s.job p).notify = false := by
    intro hno
    refine Bool.eq_false_iff.2 fun hn => hno ⟨?_, hn⟩
    cases hpc : s.pc p <;> rw [hpc] at hp <;> first | rfl | cases hp
  refine told_ctl h hk hfifo.ge (fun hpend => Or.inl ⟨hway, hjob ▸ hpend.2⟩) (fun hcur hno => Or.inl ?_)
    (fun i u hu hno => ?_) fun q i rest hq hn => ?_
  · have hsame : t.content = s.content := by
      funext i
      by_cases hiid : i = id
      · rw [hiid]
        exact hquiet (hnotify hno)
      · exact hcontent i hiid
    refine current_congr hk.dpc hk.lcopy (Or.inl hname) ?_ hcur
    rw [Sys.named, Sys.named, hname, hsame]
  · by_cases hiid : i = id
    · exact hsigned u (hiid ▸ hu) fun rest => hiid ▸ hno p rest
    · refine h.signed i u (hcontent i hiid ▸ hu) fun q rest hq => ?_
      by_cases hqp : q = p
      · rw [hqp] at hq
        rw [hq] at hp
        exact hiid (Option.some.inj hp)
      · exact hno q rest ((hk.pc q hqp).trans hq)
  · by_cases hqp : q = p
    · rw [hqp] at hq hn
      have hiid := hto i rest hq
      rw [hiid] at hq ⊢
      exact hsilent rest hq (hjob ▸ hn)
    · rw [hk.pc q hqp] at hq
      rw [hk.job q hqp] at hn
      rw [hcontent i (hother q i hqp (by rw [hq]; rfl))]
      exact h.silent q i rest hq hn

theorem told_work (hi : Inv fl qs qp bp shm s) (h : Told fl s) {p id : ℕ} {made : Bool} {junk : Option (Aufhsm F)}
    (hpc : s.pc p = .locked made id) (hgood : Succeeds fl qs qp bp s (.work p junk)) :
    Told fl (work fl qs s p made id junk) := by
  obtain ⟨hworking, hquiet⟩ := hgood made id hpc
  have hk := work_keeps fl qs s p made id junk
  obtain ⟨v, hv⟩ := work_signed hworking
  have hsettle : ∃ c log pc, work fl qs s p made id junk = s.settle p id c log pc := by
    rcases work_cases hi hpc junk with heq | ⟨c, pc, heq, -⟩
    · exact ⟨_, _, _, heq⟩
    · exact ⟨_, _, _, heq⟩
  obtain ⟨c, log, pc, heq⟩ := hsettle
  refine told_put hi h hk ?_ ?_ ?_ (by rw [hpc]; rfl) (by rw [hworking]; rfl) (fun i hne => ?_) hquiet
    (fun i rest hi => ?_) (fun u _ hno => absurd hworking (hno _)) fun rest hrest hn => ?_
  · rw [heq]
    rfl
  · rw [heq]
    rfl
  · rw [heq]
    rfl
  · rw [heq, settle_content_of_ne hne]
  · rw [hworking] at hi
    cases hi
    rfl
  · rw [hworking] at hrest
    cases hrest
    refine ⟨?_, by rw [hv]; rfl⟩
    have hempty : (s.job p).args.isEmpty = true := by
      rw [Job.notify, Bool.or_eq_false_iff, Bool.not_eq_false'] at hn
      exact hn.2
    exact List.isEmpty_iff.1 hempty

theorem told_arg (hi : Inv fl qs qp bp shm s) (h : Told fl s) {p id : ℕ} {str : Bytes} {rest : List Bytes}
    (hpc : s.pc p = .working id (str :: rest)) (hgood : Succeeds fl qs qp bp s (.arg p)) :
    Told fl (arg fl qp bp s p id str rest) := by
  have hworking := hgood id str rest hpc
  have hnotify : (s.job p).notify = true := by
    by_contra hn
    exact List.cons_ne_nil str rest (h.silent p id _ hpc (Bool.eq_false_iff.2 hn)).1
  have hput : ∃ u, arg fl qp bp s p id str rest = (s.put id (some u)).go p (.working id rest) := by
    rw [arg] at hworking ⊢
    split at hworking
    · rw [Sys.leave, go_pc] at hworking
      cases hworking
    · next u _ => exact ⟨u, rfl⟩
  obtain ⟨u, heq⟩ := hput
  rw [heq] at hworking ⊢
  refine told_put hi h ((put_keeps s p id _).trans (go_keeps _ p _)) rfl rfl rfl (by rw [hpc]; rfl)
    (by rw [hworking]; rfl) (fun i hne => by simp [Sys.go, Sys.put, hne]) (fun hn => ?_) (fun i r hr => ?_)
    (fun _ _ hno => absurd hworking (hno _)) fun _ _ hn => ?_
  · exact absurd (hn.symm.trans hnotify) Bool.false_ne_true
  · rw [hworking] at hr
    cases hr
    rfl
  · exact absurd (hn.symm.trans hnotify) Bool.false_ne_true

theorem told_sign (hi : Inv fl qs qp bp shm s) (h : Told fl s) {p id : ℕ} (hpc : s.pc p = .working id []) :
    Told fl ((s.put id ((s.content id).map (au_fhsm_sign fl))).go p (.signed id)) := by
  set t := (s.put id ((s.content id).map (au_fhsm_sign fl))).go p (.signed id) with ht
  have hsigned : t.pc p = .signed id := go_pc _ p _
  have hcontent : t.content id = (s.content id).map (au_fhsm_sign fl) := by simp [ht, Sys.go, Sys.put]
  refine told_put hi h ((put_keeps s p id _).trans (go_keeps _ p _)) rfl rfl rfl (by rw [hpc]; rfl)
    (by rw [hsigned]; rfl) (fun i hne => by simp [ht, Sys.go, Sys.put, hne]) (fun hn => ?_) (fun i r hr => ?_)
    (fun u hu _ => ?_) fun r hr _ => ?_
  · rw [hcontent]
    exact (h.silent p id [] hpc hn).2
  · rw [hsigned] at hr
    cases hr
  · rw [hcontent] at hu
    obtain ⟨v, -, rfl⟩ := Option.map_eq_some_iff.1 hu
    exact sign_verify fl v
  · rw [hsigned] at hr
    cases hr

/-- the daemon's steps -/
theorem told_daemon (h : Told fl s) {t : Sys F} (hk : DKeeps s t)
    (hcurrent : s.Current ∨ 0 < s.fifo → t.Current ∨ 0 < t.fifo) : Told fl t where
  current := by
    rcases h.current with hcur | ⟨p, hp⟩ | hlt
    · exact (hcurrent (Or.inl hcur)).imp_right Or.inr
    · refine Or.inr (Or.inl ⟨p, ?_⟩)
      rw [Sys.Pending, hk.pc, hk.job]
      exact hp
    · exact (hcurrent (Or.inr hlt)).imp_right Or.inr
  signed id u hu hno := h.signed id u (hk.content ▸ hu) fun p rest hp => hno p rest (hk.pc ▸ hp)
  silent p id rest hp hn := by
    rw [hk.content]
    exact h.silent p id rest (hk.pc ▸ hp) (hk.job ▸ hn)

/-- what is read under the lock is what is there -/
theorem load_eq (hi : Inv fl qs qp bp shm s) (h : Told fl s) {first : Bool} {id : ℕ} (hpc : s.dpc = .locked first id)
    {sys : LoadSys} (hok : sys.Ok) : au_fhsm_load fl (s.content id) sys = s.content id := by
  have hlock := (hi.dholds id).1 (by rw [hpc]; rfl)
  cases hc : s.content id with
  | none =>
    by_contra hne
    obtain ⟨t, ht⟩ := Option.ne_none_iff_exists'.1 hne
    exact nomatch (Reload.au_fhsm_load_eq_some.1 ht).1
  | some t =>
    refine Reload.au_fhsm_load_eq_some.2 ⟨rfl, h.signed id t hc fun p rest hp => ?_, hok⟩
    have hheld := (hi.holds p id).1 (by rw [hp]; rfl)
    exact nomatch hlock.symm.trans hheld

/-- a controller goes from one call to the next -/
theorem told_go (h : Told fl s) {p : ℕ} {pc : Pc} {n : Option ℕ} {m : ℕ} {lock : ℕ → Option Owner}
    (hfrom : ∀ id rest, s.pc p ≠ .working id rest) (hto : ∀ id rest, pc ≠ .working id rest)
    (hway : pc.under_way = true ∨ (s.job p).notify = false) (hn : n = s.name ∨ s.name = none)
    (hnamed : n.bind s.content = s.named) :
    Told fl ({ s with name := n, next := m, lock := lock }.go p pc) := by
  have hk : CtlKeeps p s ({ s with name := n, next := m, lock := lock }.go p pc) :=
    ⟨rfl, rfl, fun q hq => go_pc_of_ne hq _ _, fun _ _ => rfl, fun _ => List.prefix_rfl⟩
  refine told_quiet h hk le_rfl rfl hfrom (by rw [go_pc]; exact hto) (fun hp => ?_)
    fun hcur _ => Or.inl (current_congr (s := s) rfl rfl hn hnamed hcur)
  rcases hway with hway | hno
  · refine Or.inl ⟨?_, hp.2⟩
    rw [go_pc]
    exact hway
  · exact absurd (hno.symm.trans hp.2) Bool.false_ne_true

/-- the message, or nobody is there to get it -/
theorem told_tell (h : Told fl s) {p : ℕ} (hpc : s.pc p = .telling) :
    Told fl ({ s with fifo := if s.dpc != DPc.down then s.fifo + 1 else s.fifo }.go p .over) := by
  set t := { s with fifo := if s.dpc != DPc.down then s.fifo + 1 else s.fifo }.go p .over with ht
  have hk : CtlKeeps p s t :=
    ⟨rfl, rfl, fun q hq => go_pc_of_ne hq _ _, fun _ _ => rfl, fun _ => List.prefix_rfl⟩
  have hsent : t.Current ∨ 0 < t.fifo := by
    by_cases hdown : s.dpc = .down
    · left
      have hd : t.dpc = .down := hdown
      rw [Sys.Current, hd]
      trivial
    · right
      have hfifo : t.fifo = s.fifo + 1 := if_pos (bne_iff_ne.2 hdown)
      rw [hfifo]
      exact Nat.succ_pos _
  have hle : s.fifo ≤ t.fifo := by
    simp only [ht, Sys.go]
    split_ifs
    · exact Nat.le_succ _
    · exact le_rfl
  refine told_quiet h hk hle rfl (fun _ _ hp => ?_) (fun _ _ hp => ?_) (fun _ => Or.inr hsent)
    fun hcur _ => Or.inl (current_congr rfl rfl (Or.inl rfl) rfl hcur)
  · rw [hpc] at hp
    cases hp
  · rw [go_pc] at hp
    cases hp

/-- the daemon has what was there under its lock, and waits -/
theorem told_loaded (h : Told fl s) {first : Bool} {id : ℕ} (hpc : s.dpc = .locked first id) {t : Sys F}
    (hk : DKeeps s t) (hdpc : t.dpc = .waiting) (hfifo : t.fifo = s.fifo) (hcopy : t.lcopy = s.content id) :
    Told fl t := by
  refine told_daemon h hk (Or.imp (fun hc => ?_) fun hlt => hfifo ▸ hlt)
  rw [Sys.Current, hpc] at hc
  rw [Sys.Current, hdpc, hcopy, Sys.named, hk.name, hk.content, hc]
  rfl

/-- a controller with --recreate will tell; any other one has not touched anything yet -/
theorem told_enter (h : Told fl s) {p : ℕ} {j : Job} (hpc : s.pc p = .idle) {t : Sys F} (hk : CtlKeeps p s t)
    (ht : t = { s with
      job := Function.update s.job p j
      name := if j.o.recreate && j.sys.unlink then none else s.name }.go p .creating) : Told fl t := by
  subst ht
  refine told_quiet h hk le_rfl rfl (fun _ _ hp => ?_) (fun _ _ hp => ?_) (fun hp => ?_) fun hcur _ => ?_
  · rw [hpc] at hp
    cases hp
  · rw [go_pc] at hp
    cases hp
  · rw [Sys.Pending, hpc] at hp
    cases hp.1
  · cases hre : j.o.recreate with
    | true =>
      right
      refine ⟨by rw [go_pc]; rfl, ?_⟩
      simp [Sys.go, Job.notify, hre]
    | false =>
      left
      exact current_congr rfl rfl (Or.inl rfl) rfl hcur

theorem told_made (hi : Inv fl qs qp bp shm s) (h : Told fl s) {p : ℕ} (hpc : s.pc p = .creating)
    (hname : s.name = none) :
    Told fl ({ s with name := some s.next, next := s.next + 1 }.go p (.locking true s.next)) := by
  refine told_go (n := some s.next) h (by rw [hpc]; exact nofun) nofun (Or.inl rfl) (Or.inr hname) ?_
  rw [Option.bind_some, (hi.fresh s.next le_rfl).1, Sys.named, hname]
  rfl

theorem told_close (h : Told fl s) {p id : ℕ} (hpc : s.pc p = .signed id) :
    Told fl (s.leave p id (if true && (s.job p).notify then .telling else .over)) := by
  have hfrom : ∀ id rest, s.pc p ≠ .working id rest := by rw [hpc]; exact nofun
  cases hn : (s.job p).notify with
  | true => exact told_go (n := s.name) h hfrom nofun (Or.inl rfl) (Or.inl rfl) rfl
  | false => exact told_go (n := s.name) h hfrom nofun (Or.inr hn) (Or.inl rfl) rfl

/-- without a name there is nothing to load, and nothing of that name -/
theorem current_failed (hname : s.name = none) (first : Bool) : (s.failed first).Current := by
  cases first with
  | true => trivial
  | false =>
    have hnone : s.named = none := by rw [Sys.named, hname]; rfl
    exact hnone.symm

/-- **Every step** in which nothing fails keeps what the daemon is told. -/
theorem told_step (hi : Inv fl qs qp bp shm s) (h : Told fl s) {a : Act F} (hgood : Succeeds fl qs qp bp s a)
    {t : Sys F} (hstep : step fl qs qp bp s a = some t) : Told fl t := by
  cases step_cases hstep with
  | enter hpc hrun => exact told_enter h hpc (ctl_keeps hstep rfl) (by rw [if_neg (Nat.not_lt.2 hgood)])
  | uncreated hpc => exact nomatch hgood
  | taken hpc hname =>
    exact told_go (n := s.name) h (by rw [hpc]; exact nofun) nofun (Or.inl rfl) (Or.inl rfl) rfl
  | made hpc hname => exact told_made hi h hpc hname
  | mapped hpc hname =>
    exact told_go (n := s.name) h (by rw [hpc]; exact nofun) nofun (Or.inl rfl) (Or.inl rfl) rfl
  | unmapped hpc hno => exact absurd (hno hgood.1) hgood.2
  | unlocked hpc => exact nomatch hgood
  | lock hpc hfree =>
    exact told_go (n := s.name) h (by rw [hpc]; exact nofun) nofun (Or.inl rfl) (Or.inl rfl) rfl
  | work hpc => exact told_work hi h hpc hgood
  | arg hpc => exact told_arg hi h hpc hgood
  | sign hpc => exact told_sign hi h hpc
  | close hpc =>
    cases (hgood : _ = true)
    exact told_close h hpc
  | clean hpc => exact absurd hgood id
  | tell hpc =>
    cases (hgood : _ = true)
    exact told_tell h hpc
  | dstart hpc => exact told_daemon h (daemon_keeps hstep rfl) fun _ => Or.inl trivial
  | dopen hpc hname => exact told_daemon h (daemon_keeps hstep rfl) fun _ => Or.inl hname
  | unopened hpc hno =>
    exact told_daemon h (daemon_keeps hstep rfl) fun _ => Or.inl (current_failed (hno hgood) _)
  | dlock hpc hfree =>
    refine told_daemon h (daemon_keeps hstep rfl) (Or.imp_left fun hc => ?_)
    rw [Sys.Current, hpc] at hc
    exact hc
  | dunlocked hpc => exact nomatch hgood
  | read hpc hload =>
    exact told_loaded h hpc (daemon_keeps hstep rfl) rfl rfl (hload.symm.trans (load_eq hi h hpc hgood))
  | @unread first id sys hpc hload =>
    have hcopy : none = s.content id := hload.symm.trans (load_eq hi h hpc hgood)
    cases first with
    | true => exact told_daemon h (daemon_keeps hstep rfl) fun _ => Or.inl trivial
    | false => exact told_loaded h hpc (daemon_keeps hstep rfl) rfl rfl hcopy
  | dmsg hpc hfifo => exact told_daemon h (daemon_keeps hstep rfl) fun _ => Or.inl trivial
  | dreload hpc => exact told_daemon h (daemon_keeps hstep rfl) fun _ => Or.inl trivial
  | dstop hpc => exact told_daemon h (daemon_keeps hstep rfl) fun _ => Or.inl trivial

/-- **Nothing is missed.** If every call succeeds, and a controller that finds something to change writes to the fifo,
then the daemon's copy is the table of the name whenever it waits with nothing in the fifo and no controller under
way. -/
theorem nothing_missed {j : ℕ → Job} {acts : List (Act F)}
    (h : exec (step fl qs qp bp) (Sys.init shm j) acts = some s)
    (hshm : ∀ t, shm = some t → au_fhsm_sign_verify fl t = true)
    (hgood : Along (step fl qs qp bp) (Succeeds fl qs qp bp) (Sys.init shm j) acts) (hd : s.dpc = .waiting)
    (hfifo : s.fifo = 0) (hpc : ∀ p, s.pc p = .idle ∨ s.pc p = .over) :
    s.lcopy = s.name.bind s.content := by
  have hboth : Inv fl qs qp bp shm s ∧ Told fl s := by
    refine exec_invariant_along _ (fun s => Inv fl qs qp bp shm s ∧ Told fl s) ?_ ?_ hgood h
    · exact fun _ _ _ hs ha hstep => ⟨step_inv hs.1 hstep, told_step hs.1 hs.2 ha hstep⟩
    · exact ⟨init_inv fl qs qp bp shm j, init_told hshm⟩
  rcases hboth.2.current with hcur | ⟨p, hp⟩ | hlt
  · rw [Sys.Current, hd] at hcur
    exact hcur
  · rcases hpc p with hp' | hp' <;> rw [Sys.Pending, hp'] at hp <;> exact absurd hp.1 Bool.false_ne_true
  · rw [hfifo] at hlt
    exact absurd hlt (Nat.lt_irrefl 0)

instance (sys : LoadSys) : Decidable sys.Ok := by
  unfold LoadSys.Ok
  infer_instance

instance [DecidableEq F] (fl : Floats F) (qs : Qsort bridOrd (Wmark.brid (F := F))) (qp : Qsort strcmp Brinfo.path)
    (bp : Bsearch strcmp Brinfo.path) (s : Sys F) : ∀ a, Decidable (Succeeds fl qs qp bp s a)
  | .enter _ _ | .map _ _ | .create _ _ | .lock _ _ | .close _ _ | .tell _ _ | .dopen _ | .dlock _ | .dread _ => by
    unfold Succeeds
    infer_instance
  | .work p junk =>
    match h : s.pc p with
    | .locked made id =>
      decidable_of_iff ((work fl qs s p made id junk).pc p = .working id (s.job p).args ∧
          ((s.job p).notify = false → (work fl qs s p made id junk).content id = s.content id))
        ⟨fun hw made' id' h' => by cases h.symm.trans h'; exact hw, fun hw => hw made id h⟩
    | .idle | .creating | .mapping | .locking _ _ | .working _ _ | .signed _ | .cleaning | .telling | .over =>
      isTrue fun _ _ h' => nomatch h.symm.trans h'
  | .arg p =>
    match h : s.pc p with
    | .working id (str :: rest) =>
      decidable_of_iff ((arg fl qp bp s p id str rest).pc p = .working id rest)
        ⟨fun hw id' str' rest' h' => by cases h.symm.trans h'; exact hw, fun hw => hw id str rest h⟩
    | .working _ [] | .idle | .creating | .mapping | .locking _ _ | .locked _ _ | .signed _ | .cleaning | .telling
    | .over => isTrue fun _ _ _ h' => nomatch h.symm.trans h'
  | .clean _ => isFalse id
  | .sign _ | .dstart | .dmsg | .dreload | .dstop => isTrue trivial

theorem nothing_missed_two : ∃ s, exec two_step two_init two_acts = some s ∧ s.name = some 1 ∧
    s.lcopy = s.content 1 := by
  obtain ⟨s, hs, hd, hfifo, h0, h1, -, hname, -⟩ := two_run
  refine ⟨s, hs, hname, ?_⟩
  have hpc : ∀ p, s.pc p = .idle ∨ s.pc p = .over := by
    intro p
    match p with
    | 0 => exact Or.inr h0
    | 1 => exact Or.inr h1
    | p + 2 => exact Or.inl (run_idle (by simp [two_acts, Act.ctl]) hs)
  rw [nothing_missed hs nofun (by decide +kernel) hd hfifo hpc, hname]
  rfl

end AufsUtil.Fhsm.Publish
