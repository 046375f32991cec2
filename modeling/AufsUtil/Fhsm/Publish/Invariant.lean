/-
What holds in every state of a run of controllers and the daemon (`Fhsm/Publish/Model.lean`).

A controller that has a memory locked has done a part of its run on it, and what it will leave when it goes on alone is
known (`finish`). The invariant says that this is what the runs on the memory leave when they are done one after the
other, in the order in which they had the lock; and who has locked what, which memory is still to be used for the first
time, and by whom.

- `serial`: the runs on a memory, one after the other.
- `inv_settle`: the controller with the lock leaves something and goes on.
- `step_inv`, `run_inv`: every step keeps the invariant.
-/
import Mathlib.Tactic
import AufsUtil.Fhsm.Publish.Model

namespace AufsUtil.Fhsm.Publish

open AufsUtil.CStr AufsUtil.SortSearch AufsUtil.Runs
open AufsUtil.Fhsm.Reload (LoadSys au_fhsm_load)

variable {F : Type}

/-! ## Who has what -/

/-- the memory a controller has open -/
def Pc.opened : Pc → Option ℕ
  | .locking _ id | .locked _ id | .working id _ | .signed id => some id
  | _ => none

/-- the memory it has locked -/
def Pc.holds : Pc → Option ℕ
  | .locked _ id | .working id _ | .signed id => some id
  | _ => none

/-- the memory it has made and not written to yet -/
def Pc.making : Pc → Option ℕ
  | .locking made id | .locked made id => if made then some id else none
  | _ => none

/-- it has seen enough branches -/
def Pc.under_way : Pc → Bool
  | .idle | .over => false
  | _ => true

def DPc.opened : DPc → Option ℕ
  | .locking _ id | .locked _ id => some id
  | _ => none

def DPc.holds : DPc → Option ℕ
  | .locked _ id => some id
  | _ => none

section Serial

variable (fl : Floats F) (qs : Qsort bridOrd (Wmark.brid (F := F))) (qp : Qsort strcmp Brinfo.path)
  (bp : Bsearch strcmp Brinfo.path)

/-! ## One after the other -/

/-- a run on this memory, alone -/
def after (shm : Option (Aufhsm F)) (e : Job × Option (Aufhsm F)) : Option (Aufhsm F) :=
  match aufhsm_main fl qs qp bp { e.1.o with recreate := false, kill := false } e.1.sys shm e.1.brinfo e.1.args with
  | some (_, shm) => shm
  | none => e.2

def serial (shm : Option (Aufhsm F)) (log : List (Job × Option (Aufhsm F))) : Option (Aufhsm F) :=
  log.foldl (after fl qs qp bp) shm

/-- what was there before the first run -/
def base (shm : Option (Aufhsm F)) (id : ℕ) : Option (Aufhsm F) := if id = 0 then shm else none

/-- what a controller will leave when it has this memory -/
def finish (j : Job) (c : Option (Aufhsm F)) : Pc → Option (Aufhsm F)
  | .working _ rest => c.map fun t =>
    let r := wmark_loop fl bp j.o.inode (au_br_sort_path qp j.brinfo) rest t
    if r.1 then r.2 else au_fhsm_sign fl r.2
  | _ => c

/-- what a memory will hold when the controller that has it now is done -/
def Sys.due (s : Sys F) (id : ℕ) : Option (Aufhsm F) :=
  match s.lock id with
  | some (.ctl p) => finish fl qp bp (s.job p) (s.content id) (s.pc p)
  | _ => s.content id

structure Inv (shm : Option (Aufhsm F)) (s : Sys F) : Prop where
  name : ∀ id, s.name = some id → id < s.next
  opened : ∀ p id, (s.pc p).opened = some id → id < s.next
  dopened : ∀ id, s.dpc.opened = some id → id < s.next
  holds : ∀ p id, (s.pc p).holds = some id ↔ s.lock id = some (.ctl p)
  dholds : ∀ id, s.dpc.holds = some id ↔ s.lock id = some .daemon
  fresh : ∀ id, s.next ≤ id → s.content id = none ∧ s.log id = [] ∧ base shm id = none
  many : ∀ p, (s.pc p).under_way = true → 2 ≤ au_nfhsm (s.job p).brinfo
  making : ∀ p id, (s.pc p).making = some id →
    s.log id = [] ∧ base shm id = none ∧ ∀ q, (s.pc q).making = some id → q = p
  due : ∀ id, s.due fl qp bp id = serial fl qs qp bp (base shm id) (s.log id)

theorem init_inv (shm : Option (Aufhsm F)) (j : ℕ → Job) : Inv fl qs qp bp shm (Sys.init shm j) where
  name id h := by
    cases shm with
    | none => cases h
    | some t => exact Option.some.inj h ▸ Nat.one_pos
  opened _ _ h := by cases h
  dopened _ h := by cases h
  holds p id := ⟨fun h => (by cases h), fun h => by cases h⟩
  dholds id := ⟨fun h => (by cases h), fun h => by cases h⟩
  fresh id h := by
    have hne : id ≠ 0 := Nat.ne_of_gt h
    exact ⟨if_neg hne, rfl, if_neg hne⟩
  many _ h := by cases h
  making _ _ h := by cases h
  due id := rfl

variable {fl qs qp bp} {shm : Option (Aufhsm F)} {s : Sys F}

theorem holds_opened {pc : Pc} {id : ℕ} (h : pc.holds = some id) : pc.opened = some id := by
  cases pc <;> first | exact h | cases h

theorem making_opened {pc : Pc} {id : ℕ} (h : pc.making = some id) : pc.opened = some id := by
  cases pc with
  | locking made _ => cases made <;> first | exact h | cases h
  | locked made _ => cases made <;> first | exact h | cases h
  | _ => cases h

theorem due_congr {t : Sys F} {id : ℕ} (hlock : t.lock id = s.lock id) (hcontent : t.content id = s.content id)
    (hctl : ∀ p, s.lock id = some (.ctl p) → t.job p = s.job p ∧ t.pc p = s.pc p) :
    t.due fl qp bp id = s.due fl qp bp id := by
  rw [Sys.due, Sys.due, hlock, hcontent]
  cases hl : s.lock id with
  | none => rfl
  | some o => cases o with
    | daemon => rfl
    | ctl p =>
      dsimp only
      rw [(hctl p hl).1, (hctl p hl).2]

theorem due_free {id : ℕ} (h : ∀ p, s.lock id ≠ some (.ctl p)) : s.due fl qp bp id = s.content id := by
  rw [Sys.due]
  cases hl : s.lock id with
  | none => rfl
  | some o => cases o with
    | daemon => rfl
    | ctl p => exact absurd hl (h p)

theorem due_held {p id : ℕ} (h : s.lock id = some (.ctl p)) :
    s.due fl qp bp id = finish fl qp bp (s.job p) (s.content id) (s.pc p) := by rw [Sys.due, h]

/-! ## Steps -/

theorem inv_named (h : Inv fl qs qp bp shm s) {n : Option ℕ} (hn : ∀ id, n = some id → id < s.next) :
    Inv fl qs qp bp shm { s with name := n } :=
  { h with name := hn }

/-- a controller without a lock goes on without one -/
theorem inv_go (h : Inv fl qs qp bp shm s) {p : ℕ} {pc : Pc} (hfrom : (s.pc p).holds = none) (hto : pc.holds = none)
    (hopened : ∀ id, pc.opened = some id → id < s.next) (hmany : pc.under_way = true → (s.pc p).under_way = true)
    (hmaking : pc.making = none) : Inv fl qs qp bp shm (s.go p pc) where
  name := h.name
  opened q id hq := by
    by_cases hqp : q = p
    · subst hqp
      rw [go_pc] at hq
      exact hopened id hq
    · rw [go_pc_of_ne hqp] at hq
      exact h.opened q id hq
  dopened := h.dopened
  holds q id := by
    by_cases hqp : q = p
    · subst hqp
      have hlock : (s.go q pc).lock = s.lock := rfl
      rw [go_pc, hto, hlock, ← h.holds, hfrom]
    · rw [go_pc_of_ne hqp]
      exact h.holds q id
  dholds := h.dholds
  fresh := h.fresh
  many q hq := by
    by_cases hqp : q = p
    · subst hqp
      rw [go_pc] at hq
      exact h.many q (hmany hq)
    · rw [go_pc_of_ne hqp] at hq
      exact h.many q hq
  making q id hq := by
    have hother : ∀ q, ((s.go p pc).pc q).making = some id → q ≠ p ∧ (s.pc q).making = some id := by
      intro q hq
      by_cases hqp : q = p
      · rw [hqp, go_pc, hmaking] at hq
        cases hq
      · rw [go_pc_of_ne hqp] at hq
        exact ⟨hqp, hq⟩
    obtain ⟨hlog, hbase, hunique⟩ := h.making q id (hother q hq).2
    exact ⟨hlog, hbase, fun r hr => hunique r (hother r hr).2⟩
  due id := by
    have hdue : (s.go p pc).due fl qp bp id = s.due fl qp bp id := by
      refine due_congr rfl rfl fun q hq => ⟨rfl, go_pc_of_ne (fun hqp => ?_) s pc⟩
      rw [← h.holds, hqp, hfrom] at hq
      cases hq
    rw [hdue]
    exact h.due id

/-- p, which has this memory, leaves this in it and in the history, and goes on with or without the lock -/
def Sys.settle (s : Sys F) (p id : ℕ) (c : Option (Aufhsm F)) (log : List (Job × Option (Aufhsm F))) (pc : Pc) :
    Sys F :=
  { s with
    content := Function.update s.content id c
    log := Function.update s.log id log
    lock := Function.update s.lock id (pc.holds.map fun _ => .ctl p)
    pc := Function.update s.pc p pc }

section Settle

variable {p id i q : ℕ} {pc : Pc} {c : Option (Aufhsm F)} {log : List (Job × Option (Aufhsm F))}

theorem settle_content : (s.settle p id c log pc).content id = c := by simp [Sys.settle]

theorem settle_log : (s.settle p id c log pc).log id = log := by simp [Sys.settle]

theorem settle_lock : (s.settle p id c log pc).lock id = pc.holds.map fun _ => .ctl p := by simp [Sys.settle]

theorem settle_pc : (s.settle p id c log pc).pc p = pc := by simp [Sys.settle]

theorem settle_content_of_ne (h : i ≠ id) : (s.settle p id c log pc).content i = s.content i := by simp [Sys.settle, h]

theorem settle_log_of_ne (h : i ≠ id) : (s.settle p id c log pc).log i = s.log i := by simp [Sys.settle, h]

theorem settle_lock_of_ne (h : i ≠ id) : (s.settle p id c log pc).lock i = s.lock i := by simp [Sys.settle, h]

theorem settle_pc_of_ne (h : q ≠ p) : (s.settle p id c log pc).pc q = s.pc q := by simp [Sys.settle, h]

theorem settle_making (hmaking : pc.making = none) (hq : ((s.settle p id c log pc).pc q).making = some i) :
    q ≠ p ∧ (s.pc q).making = some i := by
  by_cases hqp : q = p
  · rw [hqp, settle_pc, hmaking] at hq
    cases hq
  · rw [settle_pc_of_ne hqp] at hq
    exact ⟨hqp, hq⟩

theorem inv_settle (h : Inv fl qs qp bp shm s) (hp : (s.pc p).holds = some id) (hopened : pc.opened = pc.holds)
    (hholds : ∀ i, pc.holds = some i → i = id) (hmaking : pc.making = none)
    (hlog : log = s.log id ∨ ∀ q, (s.pc q).making = some id → q = p)
    (hdue : finish fl qp bp (s.job p) c pc = serial fl qs qp bp (base shm id) log) :
    Inv fl qs qp bp shm (s.settle p id c log pc) where
  name := h.name
  opened q i hq := by
    by_cases hqp : q = p
    · rw [hqp, settle_pc, hopened] at hq
      rw [hholds i hq]
      exact h.opened p id (holds_opened hp)
    · rw [settle_pc_of_ne hqp] at hq
      exact h.opened q i hq
  dopened := h.dopened
  holds q i := by
    have hlock := (h.holds p id).1 hp
    by_cases hqp : q = p
    · rw [hqp, settle_pc]
      by_cases hi : i = id
      · rw [hi, settle_lock]
        cases hpc : pc.holds with
        | none => exact iff_of_false nofun nofun
        | some j => rw [hholds j hpc]; exact iff_of_true rfl rfl
      · rw [settle_lock_of_ne hi, ← h.holds, hp]
        exact iff_of_false (fun hpc => hi (hholds i hpc)) fun heq => hi (Option.some.inj heq).symm
    · rw [settle_pc_of_ne hqp]
      by_cases hi : i = id
      · rw [hi, settle_lock, h.holds, hlock]
        refine iff_of_false (fun heq => hqp ?_) fun heq => hqp ?_
        · cases heq
          rfl
        · obtain ⟨_, -, heq⟩ := Option.map_eq_some_iff.1 heq
          cases heq
          rfl
      · rw [settle_lock_of_ne hi]
        exact h.holds q i
  dholds i := by
    by_cases hi : i = id
    · have hd := h.dholds id
      rw [(h.holds p id).1 hp] at hd
      rw [hi, settle_lock]
      refine iff_of_false (fun heq => nomatch hd.1 heq) fun heq => ?_
      obtain ⟨_, -, heq⟩ := Option.map_eq_some_iff.1 heq
      cases heq
    · rw [settle_lock_of_ne hi]
      exact h.dholds i
  fresh i hi := by
    have hne : i ≠ id := (lt_of_lt_of_le (h.opened p id (holds_opened hp)) hi).ne'
    rw [settle_content_of_ne hne, settle_log_of_ne hne]
    exact h.fresh i hi
  many q hq := by
    by_cases hqp : q = p
    · rw [hqp]
      refine h.many p ?_
      cases hpc : s.pc p <;> rw [hpc] at hp <;> first | rfl | cases hp
    · rw [settle_pc_of_ne hqp] at hq
      exact h.many q hq
  making q i hq := by
    obtain ⟨hqp, hmade⟩ := settle_making hmaking hq
    obtain ⟨hnil, hbase, hunique⟩ := h.making q i hmade
    refine ⟨?_, hbase, fun r hr => hunique r (settle_making hmaking hr).2⟩
    by_cases hi : i = id
    · subst hi
      rw [settle_log]
      rcases hlog with rfl | hlog
      · exact hnil
      · exact absurd (hlog q hmade) hqp
    · rw [settle_log_of_ne hi]
      exact hnil
  due i := by
    by_cases hi : i = id
    · subst hi
      rw [settle_log, ← hdue, Sys.due, settle_lock, settle_content]
      cases hpc : pc.holds with
      | none => cases pc <;> first | rfl | cases hpc
      | some j =>
        rw [Option.map_some]
        dsimp only
        rw [settle_pc]
        rfl
    · rw [settle_log_of_ne hi, ← h.due i]
      refine due_congr (settle_lock_of_ne hi) (settle_content_of_ne hi)
        fun q hq => ⟨rfl, settle_pc_of_ne fun hqp => hi ?_⟩
      rw [← h.holds, hqp, hp] at hq
      exact (Option.some.inj hq).symm

end Settle

/-- a controller locks the memory it has open -/
theorem inv_lock (h : Inv fl qs qp bp shm s) {p id : ℕ} {made : Bool} (hp : s.pc p = .locking made id)
    (hfree : s.lock id = none) :
    Inv fl qs qp bp shm ((s.hold id (some (.ctl p))).go p (.locked made id)) := by
  set t := (s.hold id (some (.ctl p))).go p (.locked made id) with ht
  have hpc : t.pc p = .locked made id := go_pc _ p _
  have hpc' : ∀ {q}, q ≠ p → t.pc q = s.pc q := fun hqp => go_pc_of_ne hqp _ _
  have hlock : t.lock id = some (.ctl p) := Function.update_self id _ s.lock
  have hlock' : ∀ {i}, i ≠ id → t.lock i = s.lock i := fun hi => Function.update_of_ne hi _ s.lock
  have hopened : ∀ q i, (t.pc q).opened = some i → (s.pc q).opened = some i := by
    intro q i hq
    by_cases hqp : q = p
    · rw [hqp, hpc] at hq
      rw [hqp, hp]
      exact hq
    · rwa [hpc' hqp] at hq
  have hmaking : ∀ q i, (t.pc q).making = some i → (s.pc q).making = some i := by
    intro q i hq
    by_cases hqp : q = p
    · rw [hqp, hpc] at hq
      rw [hqp, hp]
      exact hq
    · rwa [hpc' hqp] at hq
  refine ⟨h.name, fun q i hq => h.opened q i (hopened q i hq), h.dopened, fun q i => ?_, fun i => ?_, h.fresh,
    fun q hq => ?_, fun q i hq => ?_, fun i => ?_⟩
  · by_cases hqp : q = p
    · rw [hqp, hpc]
      by_cases hi : i = id
      · rw [hi, hlock]
        exact iff_of_true rfl rfl
      · rw [hlock' hi, ← h.holds, hp]
        exact iff_of_false (fun heq => hi (Option.some.inj heq).symm) nofun
    · rw [hpc' hqp]
      by_cases hi : i = id
      · rw [hi, hlock, h.holds, hfree]
        refine iff_of_false nofun fun heq => hqp ?_
        cases heq
        rfl
      · rw [hlock' hi]
        exact h.holds q i
  · by_cases hi : i = id
    · have hd := h.dholds id
      rw [hfree] at hd
      rw [hi, hlock]
      exact iff_of_false (fun heq => nomatch hd.1 heq) nofun
    · rw [hlock' hi]
      exact h.dholds i
  · by_cases hqp : q = p
    · exact hqp ▸ h.many p (by rw [hp]; rfl)
    · rw [hpc' hqp] at hq
      exact h.many q hq
  · obtain ⟨hlog, hbase, hunique⟩ := h.making q i (hmaking q i hq)
    exact ⟨hlog, hbase, fun r hr => hunique r (hmaking r i hr)⟩
  · by_cases hi : i = id
    · have hdue := h.due id
      rw [due_free fun q hq => nomatch hfree.symm.trans hq] at hdue
      rw [hi, due_held hlock, hpc]
      exact hdue
    · have hdue : t.due fl qp bp i = s.due fl qp bp i := by
        refine due_congr (hlock' hi) rfl fun q hq => ⟨rfl, hpc' fun hqp => ?_⟩
        rw [← h.holds, hqp, hp] at hq
        cases hq
      rw [hdue]
      exact h.due i

theorem inv_enter (h : Inv fl qs qp bp shm s) {p : ℕ} {j : Job} {pc : Pc} {n : Option ℕ} (hp : s.pc p = .idle)
    (hn : ∀ id, n = some id → id < s.next) (hpc : pc = .over ∨ pc = .creating ∧ 2 ≤ au_nfhsm j.brinfo) :
    Inv fl qs qp bp shm ({ s with job := Function.update s.job p j, name := n }.go p pc) := by
  set t := { s with job := Function.update s.job p j, name := n }.go p pc with ht
  have hjob : t.job p = j := by simp [ht, Sys.go]
  have hjob' : ∀ {q}, q ≠ p → t.job q = s.job q := fun hqp => by simp [ht, Sys.go, hqp]
  have hgo : t.pc p = pc := go_pc _ p pc
  have hgo' : ∀ {q}, q ≠ p → t.pc q = s.pc q := fun hqp => go_pc_of_ne hqp _ pc
  have hnone : (t.pc p).opened = none ∧ (t.pc p).holds = none ∧ (t.pc p).making = none := by
    rw [hgo]
    rcases hpc with rfl | ⟨rfl, -⟩ <;> exact ⟨rfl, rfl, rfl⟩
  refine ⟨hn, fun q i hq => ?_, h.dopened, fun q i => ?_, h.dholds, h.fresh, fun q hq => ?_, fun q i hq => ?_,
    fun i => ?_⟩
  · by_cases hqp : q = p
    · rw [hqp, hnone.1] at hq
      cases hq
    · exact h.opened q i (hgo' hqp ▸ hq)
  · have hlock : t.lock = s.lock := rfl
    by_cases hqp : q = p
    · rw [hqp, hnone.2.1, hlock, ← h.holds, hp]
      rfl
    · rw [hgo' hqp, hlock]
      exact h.holds q i
  · by_cases hqp : q = p
    · subst hqp
      rw [hgo] at hq
      rw [hjob]
      rcases hpc with rfl | ⟨-, hmany⟩
      · cases hq
      · exact hmany
    · rw [hgo' hqp] at hq
      rw [hjob' hqp]
      exact h.many q hq
  · have hother : ∀ r, (t.pc r).making = some i → (s.pc r).making = some i := by
      intro r hr
      by_cases hrp : r = p
      · rw [hrp, hnone.2.2] at hr
        cases hr
      · rwa [hgo' hrp] at hr
    obtain ⟨hlog, hbase, hunique⟩ := h.making q i (hother q hq)
    exact ⟨hlog, hbase, fun r hr => hunique r (hother r hr)⟩
  · have hdue : t.due fl qp bp i = s.due fl qp bp i := by
      refine due_congr rfl rfl fun q hq => ?_
      have hqp : q ≠ p := by
        intro hqp
        rw [← h.holds, hqp, hp] at hq
        cases hq
      exact ⟨hjob' hqp, hgo' hqp⟩
    rw [hdue]
    exact h.due i

/-- a memory is made and gets the name -/
theorem inv_make (h : Inv fl qs qp bp shm s) {p : ℕ} (hp : s.pc p = .creating) :
    Inv fl qs qp bp shm ({ s with name := some s.next, next := s.next + 1 }.go p (.locking true s.next)) := by
  set t := { s with name := some s.next, next := s.next + 1 }.go p (.locking true s.next) with ht
  have hgo : t.pc p = .locking true s.next := go_pc _ p _
  have hgo' : ∀ {q}, q ≠ p → t.pc q = s.pc q := fun hqp => go_pc_of_ne hqp _ _
  have hlt : ∀ {i}, i < s.next → i < t.next := fun hi => Nat.lt_succ_of_lt hi
  have hmaking : ∀ q, (s.pc q).making ≠ some s.next := fun q hq =>
    Nat.lt_irrefl _ (h.opened q _ (making_opened hq))
  refine ⟨fun i hi => ?_, fun q i hq => ?_, fun i hi => hlt (h.dopened i hi), fun q i => ?_, h.dholds,
    fun i hi => h.fresh i (Nat.le_of_succ_le hi), fun q hq => ?_, fun q i hq => ?_, fun i => ?_⟩
  · cases hi
    exact Nat.lt_succ_self s.next
  · by_cases hqp : q = p
    · rw [hqp, hgo] at hq
      cases hq
      exact Nat.lt_succ_self s.next
    · rw [hgo' hqp] at hq
      exact hlt (h.opened q i hq)
  · have hlock : t.lock = s.lock := rfl
    by_cases hqp : q = p
    · rw [hqp, hgo, hlock, ← h.holds, hp]
      rfl
    · rw [hgo' hqp, hlock]
      exact h.holds q i
  · by_cases hqp : q = p
    · exact hqp ▸ h.many p (by rw [hp]; rfl)
    · rw [hgo' hqp] at hq
      exact h.many q hq
  · by_cases hi : i = s.next
    · subst hi
      have hfresh := h.fresh s.next le_rfl
      have hmine : ∀ r, (t.pc r).making = some s.next → r = p := by
        intro r hr
        by_contra hrp
        rw [hgo' hrp] at hr
        exact hmaking r hr
      refine ⟨hfresh.2.1, hfresh.2.2, fun r hr => (hmine r hr).trans (hmine q hq).symm⟩
    · have hother : ∀ r, (t.pc r).making = some i → (s.pc r).making = some i := by
        intro r hr
        by_cases hrp : r = p
        · rw [hrp, hgo] at hr
          exact absurd (Option.some.inj hr).symm hi
        · rwa [hgo' hrp] at hr
      obtain ⟨hlog, hbase, hunique⟩ := h.making q i (hother q hq)
      exact ⟨hlog, hbase, fun r hr => hunique r (hother r hr)⟩
  · have hdue : t.due fl qp bp i = s.due fl qp bp i := by
      refine due_congr rfl rfl fun q hq => ⟨rfl, hgo' fun hqp => ?_⟩
      rw [← h.holds, hqp, hp] at hq
      cases hq
    rw [hdue]
    exact h.due i

/-- the daemon goes on without a lock -/
theorem inv_dgo (h : Inv fl qs qp bp shm s) {d : DPc} {n : ℕ} {lcopy : Option (Aufhsm F)} (hfrom : s.dpc.holds = none)
    (hto : d.holds = none) (hopened : ∀ id, d.opened = some id → id < s.next) :
    Inv fl qs qp bp shm { s with dpc := d, fifo := n, lcopy := lcopy } where
  name := h.name
  opened := h.opened
  dopened := hopened
  holds := h.holds
  dholds id := by
    rw [← h.dholds, hfrom]
    exact iff_of_eq (congrArg (· = some id) hto)
  fresh := h.fresh
  many := h.many
  making := h.making
  due := h.due

/-- the daemon takes or drops the lock of a memory that no controller has -/
theorem inv_dhold (h : Inv fl qs qp bp shm s) {id : ℕ} {o : Option Owner} {d : DPc} {n : ℕ}
    {lcopy : Option (Aufhsm F)} (hid : ∀ p, s.lock id ≠ some (.ctl p)) (ho : o = none ∨ o = some .daemon)
    (hd : d.holds = o.map fun _ => id) (hother : ∀ i, i ≠ id → s.lock i ≠ some .daemon)
    (hopened : ∀ i, d.opened = some i → i < s.next) :
    Inv fl qs qp bp shm { s.hold id o with dpc := d, fifo := n, lcopy := lcopy } := by
  set t : Sys F := { s.hold id o with dpc := d, fifo := n, lcopy := lcopy } with ht
  have hlock : t.lock id = o := by simp [ht, Sys.hold]
  have hlock' : ∀ {i}, i ≠ id → t.lock i = s.lock i := fun hi => by simp [ht, Sys.hold, hi]
  have hno : ∀ p, o ≠ some (.ctl p) := by
    intro p
    rcases ho with rfl | rfl <;> nofun
  refine ⟨h.name, h.opened, hopened, fun q i => ?_, fun i => ?_, h.fresh, h.many, h.making, fun i => ?_⟩
  · by_cases hi : i = id
    · rw [hi, hlock]
      exact iff_of_false (fun hq => hid q ((h.holds q id).1 hq)) (hno q)
    · rw [hlock' hi]
      exact h.holds q i
  · by_cases hi : i = id
    · rw [hi, hlock]
      refine Iff.trans (iff_of_eq (congrArg (· = some id) hd)) ?_
      rcases ho with rfl | rfl
      · exact iff_of_false nofun nofun
      · exact iff_of_true rfl rfl
    · rw [hlock' hi]
      refine Iff.trans (iff_of_eq (congrArg (· = some i) hd)) (iff_of_false (fun heq => ?_) (hother i hi))
      obtain ⟨_, -, heq⟩ := Option.map_eq_some_iff.1 heq
      exact hi heq.symm
  · have hdue : t.due fl qp bp i = s.due fl qp bp i := by
      by_cases hi : i = id
      · rw [hi, due_free fun p => hlock ▸ hno p, due_free hid]
        rfl
      · exact due_congr (hlock' hi) rfl fun q _ => ⟨rfl, rfl⟩
    rw [hdue]
    exact h.due i

/-- au_fhsm and the run it belongs to -/
theorem after_eq {j : Job} (hmany : 2 ≤ au_nfhsm j.brinfo) (shm junk : Option (Aufhsm F)) :
    after fl qs qp bp shm (j, junk) =
      match au_fhsm fl qs j.sys.toShmSys shm (au_nfhsm j.brinfo) j.brinfo with
      | .fault => junk
      | .fin shm => shm
      | .ret err shm =>
        if err ≠ 0 then shm
        else if !j.sys.calloc || shm.isNone then shm
        else shm.map fun t =>
          let r := wmark_loop fl bp j.o.inode (au_br_sort_path qp j.brinfo) j.args t
          if r.1 then r.2 else au_fhsm_sign fl r.2 := by
  have hfew : ¬au_nfhsm j.brinfo < 2 := Nat.not_lt.2 hmany
  rw [after, aufhsm_main]
  simp only [unlinked, Bool.false_and, Bool.not_false, Bool.and_false, Bool.false_eq_true, if_false, hfew]
  cases au_fhsm fl qs j.sys.toShmSys shm (au_nfhsm j.brinfo) j.brinfo with
  | fault => rfl
  | fin shm => rfl
  | ret err shm =>
    dsimp only
    by_cases herr : err ≠ 0
    · rw [if_pos herr, if_pos herr]
    · rw [if_neg herr, if_neg herr]
      cases shm with
      | none => cases j.sys.calloc <;> rfl
      | some t =>
        cases j.sys.calloc with
        | false => rfl
        | true =>
          by_cases hr : (wmark_loop fl bp j.o.inode (au_br_sort_path qp j.brinfo) j.args t).1 = true <;> simp [hr]

theorem serial_note (c : Option (Aufhsm F)) (log : List (Job × Option (Aufhsm F))) (e : Job × Option (Aufhsm F)) :
    serial fl qs qp bp c (log ++ [e]) = after fl qs qp bp (serial fl qs qp bp c log) e := by
  rw [serial, List.foldl_append]
  rfl

theorem wmark_loop_cons (inode : Bool) (brinfo : List Brinfo) (str : Bytes) (rest : List Bytes) (t : Aufhsm F) :
    wmark_loop fl bp inode brinfo (str :: rest) t =
      match wmark fl bp inode str t brinfo with
      | none => (true, t)
      | some t => wmark_loop fl bp inode brinfo rest t := rfl

theorem leave_eq (s : Sys F) {p id : ℕ} {pc : Pc} (hpc : pc.holds = none) :
    s.leave p id pc = s.settle p id (s.content id) (s.log id) pc := by
  simp [Sys.leave, Sys.settle, Sys.go, Sys.hold, hpc]

theorem put_leave_eq (s : Sys F) {p id : ℕ} {pc : Pc} (c : Option (Aufhsm F)) (e : Job × Option (Aufhsm F))
    (hpc : pc.holds = none) : ((s.note id e).put id c).leave p id pc = s.settle p id c (s.log id ++ [e]) pc := by
  simp [Sys.leave, Sys.settle, Sys.go, Sys.hold, Sys.put, Sys.note, hpc]

theorem put_go_eq {p id : ℕ} {pc : Pc} (c : Option (Aufhsm F)) (e : Job × Option (Aufhsm F))
    (hpc : pc.holds = some id) (hlock : s.lock id = some (.ctl p)) :
    ((s.note id e).put id c).go p pc = s.settle p id c (s.log id ++ [e]) pc := by
  have heta : Function.update s.lock id (some (.ctl p)) = s.lock := by rw [← hlock, Function.update_eq_self]
  simp [Sys.settle, Sys.go, Sys.put, Sys.note, hpc, heta]

theorem put_go_eq' {p id : ℕ} {pc : Pc} (c : Option (Aufhsm F)) (hpc : pc.holds = some id)
    (hlock : s.lock id = some (.ctl p)) : (s.put id c).go p pc = s.settle p id c (s.log id) pc := by
  have heta : Function.update s.lock id (some (.ctl p)) = s.lock := by rw [← hlock, Function.update_eq_self]
  simp [Sys.settle, Sys.go, Sys.put, hpc, heta]

/-- what au_fhsm finds is what the runs before have left -/
theorem found_eq (h : Inv fl qs qp bp shm s) {p id : ℕ} {made : Bool} (hp : s.pc p = .locked made id)
    (hfound : (!made && (s.content id).isNone) = false) :
    (if made then none else s.content id) = serial fl qs qp bp (base shm id) (s.log id) ∧
      ∀ q, (s.pc q).making = some id → q = p := by
  have hlock : s.lock id = some (.ctl p) := (h.holds p id).1 (by rw [hp]; rfl)
  have hcontent := h.due id
  rw [due_held hlock, hp] at hcontent
  have hnew : ∀ q, (s.pc q).making = some id → serial fl qs qp bp (base shm id) (s.log id) = none := by
    intro q hq
    rw [(h.making q id hq).1, (h.making q id hq).2.1]
    rfl
  cases made with
  | true =>
    have hmaking : (s.pc p).making = some id := by rw [hp]; rfl
    exact ⟨(hnew p hmaking).symm, (h.making p id hmaking).2.2⟩
  | false =>
    refine ⟨hcontent, fun q hq => ?_⟩
    have hnone : s.content id = none := hcontent.trans (hnew q hq)
    rw [hnone] at hfound
    cases hfound

/-- how the turn of au_fhsm can end -/
theorem work_cases (h : Inv fl qs qp bp shm s) {p id : ℕ} {made : Bool} (hp : s.pc p = .locked made id)
    (junk : Option (Aufhsm F)) :
    work fl qs s p made id junk = s.settle p id (s.content id) (s.log id) .over ∨
      ∃ c pc, work fl qs s p made id junk = s.settle p id c (s.log id ++ [(s.job p, junk)]) pc ∧
        (pc = .over ∨ pc = .cleaning ∨ pc = .working id (s.job p).args) ∧
        (∀ q, (s.pc q).making = some id → q = p) ∧
        finish fl qp bp (s.job p) c pc =
          after fl qs qp bp (serial fl qs qp bp (base shm id) (s.log id)) (s.job p, junk) := by
  have hlock : s.lock id = some (.ctl p) := (h.holds p id).1 (by rw [hp]; rfl)
  have hmany : 2 ≤ au_nfhsm (s.job p).brinfo := h.many p (by rw [hp]; rfl)
  rw [work]
  cases hfound : !made && (s.content id).isNone with
  | true => exact Or.inl (leave_eq s rfl)
  | false =>
    obtain ⟨hshm, hmine⟩ := found_eq h hp hfound
    right
    rw [if_neg Bool.false_ne_true, ← hshm, after_eq hmany]
    cases au_fhsm fl qs (s.job p).sys.toShmSys (if made then none else s.content id) (au_nfhsm (s.job p).brinfo)
        (s.job p).brinfo with
    | fault => exact ⟨junk, .over, put_leave_eq s _ _ rfl, Or.inl rfl, hmine, rfl⟩
    | fin c => exact ⟨c, .over, put_leave_eq s _ _ rfl, Or.inl rfl, hmine, rfl⟩
    | ret err c =>
      dsimp only
      by_cases herr : err ≠ 0
      · rw [if_pos herr, if_pos herr]
        refine ⟨c, if made then .cleaning else .over, put_leave_eq s _ _ (by cases made <;> rfl), ?_, hmine, ?_⟩
        · cases made
          · exact Or.inl rfl
          · exact Or.inr (Or.inl rfl)
        · cases made <;> rfl
      · rw [if_neg herr, if_neg herr]
        by_cases hstop : (!(s.job p).sys.calloc || c.isNone) = true
        · rw [if_pos hstop, if_pos hstop]
          exact ⟨c, .over, put_leave_eq s _ _ rfl, Or.inl rfl, hmine, rfl⟩
        · rw [if_neg hstop, if_neg hstop]
          exact ⟨c, .working id (s.job p).args, put_go_eq _ _ rfl hlock, Or.inr (Or.inr rfl), hmine, rfl⟩

/-- what the controller with the lock will leave -/
theorem due_locked (h : Inv fl qs qp bp shm s) {p id : ℕ} (hp : (s.pc p).holds = some id) :
    finish fl qp bp (s.job p) (s.content id) (s.pc p) = serial fl qs qp bp (base shm id) (s.log id) := by
  rw [← h.due id, due_held ((h.holds p id).1 hp)]

theorem inv_work (h : Inv fl qs qp bp shm s) {p id : ℕ} {made : Bool} (hpc : s.pc p = .locked made id)
    (junk : Option (Aufhsm F)) : Inv fl qs qp bp shm (work fl qs s p made id junk) := by
  have hp : (s.pc p).holds = some id := by rw [hpc]; rfl
  rcases work_cases h hpc junk with heq | ⟨c, pc, heq, hcases, hmine, hfinish⟩
  · have hdue := due_locked h hp
    rw [hpc] at hdue
    rw [heq]
    exact inv_settle h hp rfl nofun rfl (Or.inl rfl) hdue
  · rw [← serial_note] at hfinish
    rw [heq]
    rcases hcases with rfl | rfl | rfl
    · exact inv_settle h hp rfl nofun rfl (Or.inr hmine) hfinish
    · exact inv_settle h hp rfl nofun rfl (Or.inr hmine) hfinish
    · exact inv_settle h hp rfl (fun i hi => (Option.some.inj hi).symm) rfl (Or.inr hmine) hfinish

theorem inv_arg (h : Inv fl qs qp bp shm s) {p id : ℕ} {str : Bytes} {rest : List Bytes}
    (hpc : s.pc p = .working id (str :: rest)) : Inv fl qs qp bp shm (arg fl qp bp s p id str rest) := by
  have hp : (s.pc p).holds = some id := by rw [hpc]; rfl
  have hdue := due_locked h hp
  rw [hpc] at hdue
  rw [arg]
  cases hw : (s.content id).bind
      fun t => wmark fl bp (s.job p).o.inode str t (au_br_sort_path qp (s.job p).brinfo) with
  | none =>
    dsimp only
    rw [leave_eq s rfl]
    refine inv_settle h hp rfl (fun i hi => by cases hi) rfl (Or.inl rfl) (Eq.trans ?_ hdue)
    cases hc : s.content id with
    | none => rfl
    | some t =>
      rw [hc, Option.bind_some] at hw
      simp [finish, wmark_loop_cons, hw]
  | some u =>
    dsimp only
    rw [put_go_eq' _ rfl ((h.holds p id).1 hp)]
    refine inv_settle h hp rfl (fun i hi => (Option.some.inj hi).symm) rfl (Or.inl rfl) (Eq.trans ?_ hdue)
    obtain ⟨t, hc, hw⟩ := Option.bind_eq_some_iff.1 hw
    rw [hc]
    simp [finish, wmark_loop_cons, hw]

theorem inv_sign (h : Inv fl qs qp bp shm s) {p id : ℕ} (hpc : s.pc p = .working id []) :
    Inv fl qs qp bp shm ((s.put id ((s.content id).map (au_fhsm_sign fl))).go p (.signed id)) := by
  have hp : (s.pc p).holds = some id := by rw [hpc]; rfl
  have hdue := due_locked h hp
  rw [hpc] at hdue
  rw [put_go_eq' _ rfl ((h.holds p id).1 hp)]
  exact inv_settle h hp rfl (fun i hi => (Option.some.inj hi).symm) rfl (Or.inl rfl) hdue

theorem inv_close (h : Inv fl qs qp bp shm s) {p id : ℕ} (hpc : s.pc p = .signed id) {pc : Pc}
    (hto : pc = .telling ∨ pc = .over) : Inv fl qs qp bp shm (s.leave p id pc) := by
  have hp : (s.pc p).holds = some id := by rw [hpc]; rfl
  have hdue := due_locked h hp
  rw [hpc] at hdue
  rcases hto with rfl | rfl <;> rw [leave_eq s rfl] <;> exact inv_settle h hp rfl nofun rfl (Or.inl rfl) hdue

/-- au_fhsmd_load has failed -/
theorem inv_failed (h : Inv fl qs qp bp shm s) (hno : s.dpc.holds = none) (first : Bool) :
    Inv fl qs qp bp shm (s.failed first) := by
  rw [Sys.failed]
  cases first with
  | true => exact inv_dgo h hno rfl nofun
  | false => exact inv_dgo (n := s.fifo) h hno rfl nofun

/-- the daemon has this memory and lets go of it -/
theorem inv_read (h : Inv fl qs qp bp shm s) {first : Bool} {id : ℕ} (hpc : s.dpc = .locked first id) {d : DPc} {n : ℕ}
    {lcopy : Option (Aufhsm F)} (hd : d.holds = none) (hopened : d.opened = none) :
    Inv fl qs qp bp shm { s.hold id none with dpc := d, fifo := n, lcopy := lcopy } := by
  have hlock := h.dholds
  rw [hpc] at hlock
  refine inv_dhold h (fun p hp => ?_) (Or.inl rfl) hd (fun i hi hd => hi ?_) fun i hi => ?_
  · exact nomatch hp.symm.trans ((hlock id).1 rfl)
  · exact (Option.some.inj ((hlock i).2 hd)).symm
  · rw [hopened] at hi
    cases hi

theorem inv_enter_step (h : Inv fl qs qp bp shm s) {p : ℕ} {j : Job} (hpc : s.pc p = .idle) :
    Inv fl qs qp bp shm ({ s with
      job := Function.update s.job p j
      name := if j.o.recreate && j.sys.unlink then none else s.name }.go p
        (if au_nfhsm j.brinfo < 2 then .over else .creating)) := by
  refine inv_enter h hpc (fun id hid => ?_) ?_
  · split_ifs at hid
    exact h.name id hid
  · by_cases hfew : au_nfhsm j.brinfo < 2
    · exact Or.inl (if_pos hfew)
    · exact Or.inr ⟨if_neg hfew, Nat.not_lt.1 hfew⟩

/-- a controller gives up before it has anything -/
theorem inv_over (h : Inv fl qs qp bp shm s) {p : ℕ} (hfrom : (s.pc p).holds = none) :
    Inv fl qs qp bp shm (s.go p .over) := inv_go h hfrom rfl nofun nofun rfl

theorem inv_map (h : Inv fl qs qp bp shm s) {p id : ℕ} (hpc : s.pc p = .mapping) (hname : s.name = some id) :
    Inv fl qs qp bp shm (s.go p (.locking false id)) := by
  refine inv_go h (by rw [hpc]; rfl) rfl (fun i hi => ?_) (fun _ => by rw [hpc]; rfl) rfl
  cases hi
  exact h.name id hname

theorem inv_tell (h : Inv fl qs qp bp shm s) {p n : ℕ} (hpc : s.pc p = .telling) :
    Inv fl qs qp bp shm ({ s with fifo := n }.go p .over) := by
  have hover : Inv fl qs qp bp shm (s.go p .over) := inv_over h (by rw [hpc]; rfl)
  exact { hover with }

theorem inv_dopen (h : Inv fl qs qp bp shm s) {first : Bool} {id : ℕ} (hpc : s.dpc = .loading first)
    (hname : s.name = some id) : Inv fl qs qp bp shm { s with dpc := .locking first id } := by
  refine inv_dgo (d := .locking first id) h (by rw [hpc]; rfl) rfl fun i hi => ?_
  cases hi
  exact h.name id hname

theorem inv_dlock (h : Inv fl qs qp bp shm s) {first : Bool} {id : ℕ} (hpc : s.dpc = .locking first id)
    (hfree : s.lock id = none) :
    Inv fl qs qp bp shm { s.hold id (some .daemon) with dpc := .locked first id } := by
  refine inv_dhold h (fun p hp => nomatch hfree.symm.trans hp) (Or.inr rfl) rfl (fun i _ hi => ?_) fun i hi => ?_
  · rw [← h.dholds, hpc] at hi
    cases hi
  · refine h.dopened i ?_
    rw [hpc]
    exact hi

/-- **Every step** keeps the invariant. -/
theorem step_inv (h : Inv fl qs qp bp shm s) {a : Act F} {t : Sys F} (hstep : step fl qs qp bp s a = some t) :
    Inv fl qs qp bp shm t := by
  cases step_cases hstep with
  | enter hpc hrun => exact inv_enter_step h hpc
  | uncreated hpc => exact inv_over h (by rw [hpc]; rfl)
  | taken hpc hname => exact inv_go h (by rw [hpc]; rfl) rfl nofun (fun _ => by rw [hpc]; rfl) rfl
  | made hpc hname => exact inv_make h hpc
  | mapped hpc hname => exact inv_map h hpc hname
  | unmapped hpc hno => exact inv_over h (by rw [hpc]; rfl)
  | unlocked hpc => exact inv_over h (by rw [hpc]; rfl)
  | lock hpc hfree => exact inv_lock h hpc hfree
  | work hpc => exact inv_work h hpc _
  | arg hpc => exact inv_arg h hpc
  | sign hpc => exact inv_sign h hpc
  | close hpc => exact inv_close h hpc (by split_ifs <;> simp)
  | clean hpc => exact inv_over (inv_named (n := none) h nofun) (by rw [hpc]; rfl)
  | tell hpc => exact inv_tell h hpc
  | dstart hpc => exact inv_dgo h (by rw [hpc]; rfl) rfl nofun
  | dopen hpc hname => exact inv_dopen h hpc hname
  | unopened hpc hno => exact inv_failed h (by rw [hpc]; rfl) _
  | dlock hpc hfree => exact inv_dlock h hpc hfree
  | dunlocked hpc => exact inv_failed h (by rw [hpc]; rfl) _
  | read hpc hload => exact inv_read h hpc rfl rfl
  | @unread first id sys hpc hload => cases first <;> exact inv_read h hpc rfl rfl
  | dmsg hpc hfifo => exact inv_dgo h (by rw [hpc]; rfl) rfl nofun
  | dreload hpc => exact inv_dgo h (by rw [hpc]; rfl) rfl nofun
  | dstop hpc => exact inv_dgo h (by rw [hpc]; rfl) rfl nofun

theorem run_inv {j : ℕ → Job} {acts : List (Act F)}
    (h : exec (step fl qs qp bp) (Sys.init shm j) acts = some s) : Inv fl qs qp bp shm s :=
  exec_invariant _ (Inv fl qs qp bp shm) (fun _ _ _ hs => step_inv hs) (init_inv fl qs qp bp shm j) h


end Serial

end AufsUtil.Fhsm.Publish
