/-
The pseudo-link maintenance mode between auplink, mount.aufs, umount.aufs and everybody else (`plink.c`, au_plink and
au_plink_maint; main of `mount.aufs.c` and `umount.aufs.c`).

A flush begins the mode with a descriptor of plink_maint, collects the pseudo-links, has them copied up, and lets the
kernel forget them all. The two mount helpers flush so that nothing is lost when mount(8) or umount(8) makes the kernel
forget them once more. They open the descriptor with O_CLOEXEC, and mount.aufs closes it as soon as it has forked.

- `flush_atomic`: in every run, what a flush has collected is exactly what the kernel has, until it forgets it, and no
  other program is in the mode.
- `lost_when`: a pseudo-link is lost only if a walk has missed it, or if it was made after a helper's flush and before
  its mount(2) or umount(2), or in a remount for which mount.aufs did not flush. The second is possible since the
  descriptor is closed by exec(2), the third since test_flush (`Mount/Flush.lean`) does not see every option that makes
  the kernel forget.

What the model keeps: any number of programs and their children, each at its place between two system calls, which can
end anywhere (AuFin); who has the descriptor open; the pseudo-links of one mount point; remounts with whatever
test_flush has returned. What the kernel does is what aufs(5) says: only the program in the mode and its children
operate in aufs, all others wait. A walk copies up some of what was collected, and a remount makes the kernel forget
some of what there is, as its options are. The names in the plink directories are the pseudo-links in memory, and the
mount has the option plink, so umount.aufs flushes. The rest of the helpers, mtab and the controller of FHSM, comes
later and touches no pseudo-link.
-/
import Mathlib.Tactic
import AufsUtil.Lib.Runs

namespace AufsUtil.Mount.Maintenance

open AufsUtil.Runs

/-! ## Programs and the kernel -/

inductive Tool where
  | auplink
  /-- a remount, and what test_flush has returned for its options -/
  | mount (flush : Bool)
  | umount
deriving DecidableEq, Repr

def Tool.flushes : Tool → Bool
  | .mount flush => flush
  | .auplink | .umount => true

/-- the place of a program -/
inductive Pc where
  | start
  /-- the descriptor is open -/
  | opened
  /-- in the mode -/
  | entered
  | collected
  /-- behind nftw(3) -/
  | touched
  /-- behind au_plink -/
  | flushed
  /-- mount.aufs has a child -/
  | forked
  /-- and has closed its descriptor -/
  | closed
  /-- umount.aufs runs umount(8) -/
  | execed
  | ended
deriving DecidableEq, Repr

/-- the place of the child of mount.aufs -/
inductive Child where
  | none
  | forked
  /-- it runs mount(8) -/
  | execed
  | mounted
  | ended
deriving DecidableEq, Repr

structure Prog where
  tool : Tool
  /-- AuPlinkFlag_CLOEXEC -/
  cloexec : Bool
  pc : Pc
  child : Child
  /-- what build_array has collected -/
  ia : List ℕ
  /-- the pseudo-links that others made behind the flush, kept for the proofs -/
  gap : List ℕ
deriving DecidableEq, Repr

/-- a descriptor with which the mode was begun is open in the program or in its child -/
def Prog.inside (p : Prog) : Bool :=
  p.tool.flushes &&
    ((match p.pc with
      | .entered | .collected | .touched | .flushed | .forked => true
      | .execed => !p.cloexec
      | .start | .opened | .closed | .ended => false) ||
    match p.child with
      | .forked => true
      | .execed | .mounted => !p.cloexec
      | .none | .ended => false)

/-- the flush is done, the call for which it was made is not -/
def Prog.armed (p : Prog) : Bool :=
  p.tool.flushes &&
    ((p.pc == .flushed && p.tool != .auplink) || p.pc == .execed || p.child == .forked || p.child == .execed)

/-- the mount point, and all programs that ever ran -/
structure Sys where
  progs : List Prog
  /-- which one is in the mode -/
  mode : Option ℕ
  mounted : Bool
  /-- the pseudo-links in memory, by the order in which they were made -/
  mem : List ℕ
  made : ℕ
  /-- those that were copied up -/
  real : List ℕ
  /-- those that were forgotten without -/
  lost : List ℕ
  /-- those that a walk has missed -/
  missed : List ℕ
  /-- those that were forgotten without, for a mount without a flush -/
  unflushed : List ℕ
deriving DecidableEq, Repr

def init : Sys := ⟨[], none, true, [], 0, [], [], [], []⟩

/-- the program at place i; the mode ends with its last descriptor -/
def Sys.put (s : Sys) (i : ℕ) (p : Prog) : Sys :=
  { s with progs := s.progs.set i p, mode := if s.mode = some i ∧ p.inside = false then none else s.mode }

/-- the kernel forgets its pseudo-links -/
def Sys.forget (s : Sys) : Sys := { s with mem := [], lost := s.mem.filter (· ∉ s.real) ++ s.lost }

/-- the kernel forgets some of them for a program -/
def Sys.drop (s : Sys) (p : Prog) (gone : List ℕ) : Sys :=
  let lost := s.mem.filter fun x => x ∈ gone ∧ x ∉ s.real
  { s with
    mem := s.mem.filter (· ∉ gone)
    lost := lost ++ s.lost
    unflushed := if p.tool.flushes then s.unflushed else lost ++ s.unflushed }

/-- the kernel lets the program operate -/
def Sys.lets (s : Sys) (i : ℕ) : Prop := s.mounted ∧ (s.mode = none ∨ s.mode = some i)

instance (s : Sys) (i : ℕ) : Decidable (s.lets i) := inferInstanceAs (Decidable (_ ∧ _))

inductive Call where
  | open
  /-- write(2) of si=.. -/
  | enter
  /-- build_array for all branches -/
  | collect
  /-- nftw(3) with ftw_cpup, which reaches some of what was collected -/
  | walk (reached : List ℕ)
  /-- write(2) of "clean" -/
  | clean
  | fork
  | close
  /-- execv(2) of umount(8) -/
  | exec
  | umount
  /-- the program ends -/
  | fin
  /-- execv(2) of mount(8) -/
  | child_exec
  /-- mount(2), with what its options make the kernel forget -/
  | child_mount (gone : List ℕ)
  | child_end
deriving DecidableEq, Repr

/-- the next call of the program at place i -/
def call (s : Sys) (i : ℕ) (p : Prog) : Call → Option Sys
  | .open => if p.pc = .start ∧ p.tool.flushes then some (s.put i { p with pc := .opened }) else none
  | .enter =>
    if p.pc = .opened ∧ s.mounted ∧ s.mode = none then some ({ s with mode := some i }.put i { p with pc := .entered })
    else none
  | .collect =>
    -- without pseudo-links do_plink returns at once
    if p.pc = .entered then some (s.put i { p with ia := s.mem, pc := if s.mem = [] then .flushed else .collected })
    else none
  | .walk reached =>
    if p.pc = .collected then
      some ({ s with
        real := p.ia.filter (· ∈ reached) ++ s.real
        missed := p.ia.filter (· ∉ reached) ++ s.missed }.put i { p with pc := .touched })
    else none
  | .clean => if p.pc = .touched then some (s.forget.put i { p with pc := .flushed }) else none
  | .fork =>
    -- without a flush there is no descriptor
    if p.tool = .mount true ∧ p.pc = .flushed ∨ p.tool = .mount false ∧ p.pc = .start then
      some (s.put i { p with pc := .forked, child := .forked })
    else none
  | .close => if p.pc = .forked then some (s.put i { p with pc := .closed }) else none
  | .exec => if p.pc = .flushed ∧ p.tool = .umount then some (s.put i { p with pc := .execed }) else none
  | .umount =>
    if p.pc = .execed ∧ s.lets i then some ({ s.forget with mounted := false }.put i { p with pc := .ended }) else none
  | .fin => if p.pc ≠ .ended then some (s.put i { p with pc := .ended }) else none
  | .child_exec => if p.child = .forked then some (s.put i { p with child := .execed }) else none
  | .child_mount gone =>
    if p.child = .execed ∧ s.lets i then some ((s.drop p gone).put i { p with child := .mounted }) else none
  | .child_end => if p.child ≠ .none then some (s.put i { p with child := .ended }) else none

inductive Act where
  /-- a program is started -/
  | spawn (tool : Tool) (cloexec : Bool)
  /-- anybody makes a pseudo-link -/
  | link
  | run (i : ℕ) (c : Call)
deriving DecidableEq, Repr

/-- a new pseudo-link -/
def Prog.noted (x : ℕ) (p : Prog) : Prog := if p.armed then { p with gap := x :: p.gap } else p

def step (s : Sys) : Act → Option Sys
  | .spawn tool cloexec => some { s with progs := s.progs ++ [⟨tool, cloexec, .start, .none, [], []⟩] }
  | .link =>
    if s.mounted ∧ s.mode = none then
      some { s with mem := s.made :: s.mem, made := s.made + 1, progs := s.progs.map (Prog.noted s.made) }
    else none
  | .run i c => s.progs[i]?.bind fun p => call s i p c

/-! ## What holds in every run -/

/-- what is known of a program -/
structure Good (s : Sys) (i : ℕ) (p : Prog) : Prop where
  mode : p.inside → s.mode = some i
  ia : p.pc = .collected ∨ p.pc = .touched → s.mem = p.ia
  touched : p.pc = .touched → ∀ x ∈ p.ia, x ∈ s.real ∨ x ∈ s.missed
  empty : p.armed → s.mode = some i → s.mem = []
  gap : p.armed → s.mode ≠ some i → ∀ x ∈ s.mem, x ∈ p.gap
  flag : p.gap ≠ [] → p.cloexec
  child : p.child ≠ .none → p.pc = .forked ∨ p.pc = .closed ∨ p.pc = .ended
  /-- who does not flush is never in the mode -/
  outside : p.tool.flushes = false → p.pc = .start ∨ p.pc = .forked ∨ p.pc = .closed ∨ p.pc = .ended

structure Inv (s : Sys) : Prop where
  good : ∀ i p, s.progs[i]? = some p → Good s i p
  holder : ∀ i, s.mode = some i → ∃ p, s.progs[i]? = some p ∧ p.inside
  lost : ∀ x ∈ s.lost, x ∈ s.missed ∨ x ∈ s.unflushed ∨ ∃ p ∈ s.progs, p.cloexec ∧ x ∈ p.gap

theorem Good.collected_inside {s : Sys} {i : ℕ} {p : Prog} (h : Good s i p)
    (hpc : p.pc = .collected ∨ p.pc = .touched) : p.inside := by
  have hflushes : p.tool.flushes = true := by
    by_contra hne
    have hout := h.outside (Bool.eq_false_iff.2 hne)
    rcases hpc with hpc | hpc <;> simp [hpc] at hout
  rcases hpc with hpc | hpc <;> simp [Prog.inside, hpc, hflushes]

/-- a step of program i as the others see it: they see nothing, or the mode was free or its own, and pseudo-links go -/
def Seen (s s' : Sys) (i : ℕ) : Prop :=
  s'.mode = s.mode ∧ s'.mem = s.mem ∨
    (s.mode = none ∨ s.mode = some i) ∧ (s'.mode = none ∨ s'.mode = some i) ∧ ∀ x ∈ s'.mem, x ∈ s.mem

/-- the histories only grow -/
structure Grows (s s' : Sys) : Prop where
  real : ∀ x ∈ s.real, x ∈ s'.real
  missed : ∀ x ∈ s.missed, x ∈ s'.missed
  unflushed : ∀ x ∈ s.unflushed, x ∈ s'.unflushed

theorem Grows.refl (s : Sys) : Grows s s := ⟨fun _ h => h, fun _ h => h, fun _ h => h⟩

theorem good_other {s s' : Sys} {i j : ℕ} {q : Prog} (h : Good s j q) (hj : j ≠ i) (hseen : Seen s s' i)
    (hgrows : Grows s s') : Good s' j q := by
  obtain ⟨hmode, hmem⟩ | ⟨hmode, hmode', hmem⟩ := hseen
  · exact {
      mode := fun hin => hmode.trans (h.mode hin)
      ia := fun hpc => hmem.trans (h.ia hpc)
      touched := fun hpc x hx => (h.touched hpc x hx).imp (hgrows.real x) (hgrows.missed x)
      empty := fun ha hm => hmem.trans (h.empty ha (hmode ▸ hm))
      gap := fun ha hm => hmem ▸ h.gap ha (hmode ▸ hm)
      flag := h.flag
      child := h.child
      outside := h.outside }
  · -- it is not in the mode
    have hne : ∀ m : Option ℕ, m = none ∨ m = some i → m ≠ some j := by
      rintro m (rfl | rfl) hm
      · cases hm
      · exact hj (Option.some.inj hm).symm
    have hout : ¬q.inside := fun hin => hne _ hmode (h.mode hin)
    exact {
      mode := fun hin => absurd hin hout
      ia := fun hpc => absurd (h.collected_inside hpc) hout
      touched := fun hpc => absurd (h.collected_inside (Or.inr hpc)) hout
      empty := fun _ hm => absurd hm (hne _ hmode')
      gap := fun ha _ x hx => h.gap ha (hne _ hmode) x (hmem x hx)
      flag := h.flag
      child := h.child
      outside := h.outside }

/-- why a pseudo-link that a program made the kernel forget is lost -/
def Excused (s : Sys) (p : Prog) (x : ℕ) : Prop := x ∈ s.missed ∨ x ∈ s.unflushed ∨ p.cloexec ∧ x ∈ p.gap

/-- the step of a program -/
theorem inv_put {s s' : Sys} {i : ℕ} {p p' : Prog} (h : Inv s) (hp : s.progs[i]? = some p)
    (hprogs : s'.progs = s.progs.set i p') (hgap : p'.gap = p.gap) (hflag : p'.cloexec = p.cloexec)
    (hseen : Seen s s' i) (hgrows : Grows s s') (hgood : Good s' i p') (hholder : s'.mode = some i → p'.inside)
    (hlost : ∀ x ∈ s'.lost, x ∈ s.lost ∨ Excused s' p x) : Inv s' := by
  have hi : i < s.progs.length := (List.getElem?_eq_some_iff.1 hp).1
  have hself : s'.progs[i]? = some p' := by rw [hprogs, List.getElem?_set_self hi]
  have hother : ∀ j, j ≠ i → s'.progs[j]? = s.progs[j]? := fun j hj => by
    rw [hprogs, List.getElem?_set_ne (Ne.symm hj)]
  refine ⟨fun j q hq => ?_, fun j hj => ?_, fun x hx => ?_⟩
  · by_cases hji : j = i
    · subst hji
      rw [hself, Option.some.injEq] at hq
      exact hq ▸ hgood
    · rw [hother j hji] at hq
      exact good_other (h.good j q hq) hji hseen hgrows
  · by_cases hji : j = i
    · subst hji
      exact ⟨p', hself, hholder hj⟩
    · obtain ⟨hmode, -⟩ | ⟨-, hmode', -⟩ := hseen
      · rw [hother j hji]
        exact h.holder j (hmode ▸ hj)
      · rw [hj] at hmode'
        rcases hmode' with hm | hm
        · cases hm
        · exact absurd (Option.some.inj hm) hji
  · rcases hlost x hx with hold | hm | hu | ⟨hc, hg⟩
    · rcases h.lost x hold with hm | hu | ⟨q, hq, hc, hg⟩
      · exact Or.inl (hgrows.missed x hm)
      · exact Or.inr (Or.inl (hgrows.unflushed x hu))
      · right; right
        obtain ⟨j, hj⟩ := List.mem_iff_getElem?.1 hq
        by_cases hji : j = i
        · subst hji
          rw [hp, Option.some.injEq] at hj
          subst hj
          exact ⟨p', List.mem_of_getElem? hself, hflag ▸ hc, hgap ▸ hg⟩
        · exact ⟨q, List.mem_of_getElem? ((hother j hji).trans hj), hc, hg⟩
    · exact Or.inl hm
    · exact Or.inr (Or.inl hu)
    · exact Or.inr (Or.inr ⟨p', List.mem_of_getElem? hself, hflag ▸ hc, hgap ▸ hg⟩)

theorem mode_put (t : Sys) (i : ℕ) (p : Prog) : (t.put i p).mode = some i ↔ t.mode = some i ∧ p.inside := by
  simp only [Sys.put]
  cases p.inside <;> by_cases hm : t.mode = some i <;> simp [hm]

theorem mode_put_other (t : Sys) (i : ℕ) (p : Prog) :
    (t.put i p).mode = t.mode ∨ t.mode = some i ∧ (t.put i p).mode = none := by
  simp only [Sys.put]
  split_ifs with h
  · exact Or.inr ⟨h.1, rfl⟩
  · exact Or.inl rfl

section Call

variable {s t : Sys} {i : ℕ} {p p' : Prog}

/-- a call that neither begins the mode nor makes the kernel forget -/
theorem inv_quiet (h : Inv s) (hp : s.progs[i]? = some p) (hprogs : t.progs = s.progs) (hmode : t.mode = s.mode)
    (hmem : t.mem = s.mem) (hlost : t.lost = s.lost) (hgrows : Grows s t) (hgap : p'.gap = p.gap)
    (hflag : p'.cloexec = p.cloexec) (hin : p'.inside → p.inside)
    (hia : p'.pc = .collected ∨ p'.pc = .touched → s.mem = p'.ia)
    (htouched : p'.pc = .touched → ∀ x ∈ p'.ia, x ∈ t.real ∨ x ∈ t.missed)
    (harmed : p'.armed → p.armed ∨ s.mem = [])
    (hchild : p'.child ≠ .none → p'.pc = .forked ∨ p'.pc = .closed ∨ p'.pc = .ended)
    (hout : p'.tool.flushes = false → p'.pc = .start ∨ p'.pc = .forked ∨ p'.pc = .closed ∨ p'.pc = .ended) :
    Inv (t.put i p') := by
  have hg := h.good i p hp
  refine inv_put h hp (by rw [← hprogs]; rfl) hgap hflag ?_ ⟨hgrows.real, hgrows.missed, hgrows.unflushed⟩ ?_
    (fun hm => ((mode_put t i p').1 hm).2) fun x hx => Or.inl (hlost ▸ hx)
  · rcases mode_put_other t i p' with hsame | ⟨hown, hnone⟩
    · exact Or.inl ⟨hsame.trans hmode, hmem⟩
    · exact Or.inr ⟨Or.inr (hmode ▸ hown), Or.inl hnone, fun x hx => hmem ▸ hx⟩
  · exact {
      mode := fun hin' => (mode_put t i p').2 ⟨hmode.trans (hg.mode (hin hin')), hin'⟩
      ia := fun hpc => hmem.trans (hia hpc)
      touched := htouched
      empty := fun ha hm => by
        rw [mode_put, hmode] at hm
        rcases harmed ha with ha | hnil
        · exact hmem.trans (hg.empty ha hm.1)
        · exact hmem.trans hnil
      gap := fun ha _ x hx => by
        have hx : x ∈ s.mem := hmem ▸ hx
        rcases harmed ha with ha | hnil
        · by_cases hm : s.mode = some i
          · rw [hg.empty ha hm] at hx
            exact absurd hx List.not_mem_nil
          · exact hgap ▸ hg.gap ha hm x hx
        · rw [hnil] at hx
          exact absurd hx List.not_mem_nil
      flag := fun hne => hflag ▸ hg.flag (hgap ▸ hne)
      child := hchild
      outside := hout }

/-- a call that makes the kernel forget some or all pseudo-links -/
theorem inv_forget (h : Inv s) (hp : s.progs[i]? = some p) (hprogs : t.progs = s.progs) (hmode : t.mode = s.mode)
    (hmem : ∀ x ∈ t.mem, x ∈ s.mem) (hgrows : Grows s t) (hgap : p'.gap = p.gap)
    (hflag : p'.cloexec = p.cloexec) (hin : p'.inside → p.inside) (hown : s.mode = none ∨ s.mode = some i)
    (hpc : p'.pc ≠ .collected ∧ p'.pc ≠ .touched) (harmed : p'.armed → t.mem = [])
    (hchild : p'.child ≠ .none → p'.pc = .forked ∨ p'.pc = .closed ∨ p'.pc = .ended)
    (hout : p'.tool.flushes = false → p'.pc = .start ∨ p'.pc = .forked ∨ p'.pc = .closed ∨ p'.pc = .ended)
    (hlost : ∀ x ∈ t.lost, x ∈ s.lost ∨ Excused t p x) : Inv (t.put i p') := by
  have hg := h.good i p hp
  refine inv_put h hp (by rw [← hprogs]; rfl) hgap hflag (Or.inr ⟨hown, ?_, hmem⟩)
    ⟨hgrows.real, hgrows.missed, hgrows.unflushed⟩ ?_ (fun hm => ((mode_put t i p').1 hm).2) hlost
  · rcases mode_put_other t i p' with hsame | ⟨-, hnone⟩
    · rw [hsame, hmode]
      exact hown
    · exact Or.inl hnone
  · exact {
      mode := fun hin' => (mode_put t i p').2 ⟨hmode.trans (hg.mode (hin hin')), hin'⟩
      ia := fun hpc' => absurd hpc' (not_or.2 hpc)
      touched := fun hpc' => absurd hpc' hpc.2
      empty := fun ha _ => harmed ha
      gap := fun ha _ x hx => by
        rw [show (t.put i p').mem = [] from harmed ha] at hx
        exact absurd hx List.not_mem_nil
      flag := fun hne => hflag ▸ hg.flag (hgap ▸ hne)
      child := hchild
      outside := hout }

/-- what the kernel forgets for a helper that has flushed was made behind its flush -/
theorem armed_excused (hg : Good s i p) (ha : p.armed) {x : ℕ} (hx : x ∈ s.mem) : p.cloexec ∧ x ∈ p.gap := by
  by_cases hm : s.mode = some i
  · rw [hg.empty ha hm] at hx
    exact absurd hx List.not_mem_nil
  · have hin := hg.gap ha hm x hx
    exact ⟨hg.flag (List.ne_nil_of_mem hin), hin⟩

/-- a program that has not forked has no child -/
theorem Good.no_child (hg : Good s i p) (hpc : ¬(p.pc = .forked ∨ p.pc = .closed ∨ p.pc = .ended)) :
    p.child = .none := by
  by_contra hne
  exact hpc (hg.child hne)

/-- a program that is anywhere else than these flushes -/
theorem Good.flushes (hg : Good s i p) (hpc : ¬(p.pc = .start ∨ p.pc = .forked ∨ p.pc = .closed ∨ p.pc = .ended)) :
    p.tool.flushes = true := by
  by_contra hne
  exact hpc (hg.outside (Bool.eq_false_iff.2 hne))

theorem inv_open (h : Inv s) (hp : s.progs[i]? = some p) (hpc : p.pc = .start) (hfl : p.tool.flushes) :
    Inv (s.put i { p with pc := .opened }) := by
  have hnone := (h.good i p hp).no_child (by simp [hpc])
  exact inv_quiet h hp rfl rfl rfl rfl (Grows.refl s) rfl rfl (by simp [Prog.inside, hnone]) (by simp) (by simp)
    (by simp [Prog.armed, hnone]) (by simp [hnone]) (by simp [hfl])

theorem inv_enter (h : Inv s) (hp : s.progs[i]? = some p) (hpc : p.pc = .opened) (hfree : s.mode = none) :
    Inv ({ s with mode := some i }.put i { p with pc := .entered }) := by
  have hg := h.good i p hp
  have hnone := hg.no_child (by simp [hpc])
  have hfl := hg.flushes (by simp [hpc])
  have hin : ({ p with pc := .entered } : Prog).inside := by simp [Prog.inside, hfl]
  have hmode : ({ s with mode := some i }.put i { p with pc := .entered }).mode = some i :=
    (mode_put _ _ _).2 ⟨rfl, hin⟩
  have harmed : ¬({ p with pc := .entered } : Prog).armed := by simp [Prog.armed, hnone]
  exact inv_put h hp rfl rfl rfl (Or.inr ⟨Or.inl hfree, Or.inr hmode, fun x hx => hx⟩)
    ⟨fun _ hx => hx, fun _ hx => hx, fun _ hx => hx⟩
    { mode := fun _ => hmode
      ia := by simp
      touched := by simp
      empty := fun ha => absurd ha harmed
      gap := fun ha => absurd ha harmed
      flag := hg.flag
      child := fun hne => absurd hnone hne
      outside := by simp [hfl] }
    (fun _ => hin) fun x hx => Or.inl hx

theorem inv_collect (h : Inv s) (hp : s.progs[i]? = some p) (hpc : p.pc = .entered) :
    Inv (s.put i { p with ia := s.mem, pc := if s.mem = [] then .flushed else .collected }) := by
  have hg := h.good i p hp
  have hnone := hg.no_child (by simp [hpc])
  have hfl := hg.flushes (by simp [hpc])
  have hin : p.inside := by simp [Prog.inside, hpc, hfl]
  refine inv_quiet h hp rfl rfl rfl rfl (Grows.refl s) rfl rfl (fun _ => hin) (fun _ => rfl) ?_ ?_ (by simp [hnone])
    (by simp [hfl])
  · intro htouched
    split_ifs at htouched
  · intro ha
    by_cases hmem : s.mem = []
    · exact Or.inr hmem
    · simp [Prog.armed, hnone, hmem] at ha

theorem inv_walk (h : Inv s) (hp : s.progs[i]? = some p) (hpc : p.pc = .collected) (reached : List ℕ) :
    Inv ({ s with
      real := p.ia.filter (· ∈ reached) ++ s.real
      missed := p.ia.filter (· ∉ reached) ++ s.missed }.put i { p with pc := .touched }) := by
  have hg := h.good i p hp
  have hnone := hg.no_child (by simp [hpc])
  have hfl := hg.flushes (by simp [hpc])
  refine inv_quiet h hp rfl rfl rfl rfl
    ⟨fun _ hx => List.mem_append_right _ hx, fun _ hx => List.mem_append_right _ hx, fun _ hx => hx⟩ rfl rfl
    (fun _ => hg.collected_inside (Or.inl hpc)) (fun _ => hg.ia (Or.inl hpc)) ?_ (by simp [Prog.armed, hnone])
    (by simp [hnone]) (by simp [hfl])
  intro _ x hx
  by_cases hr : x ∈ reached
  · exact Or.inl (List.mem_append_left _ (List.mem_filter.2 ⟨hx, by simpa using hr⟩))
  · exact Or.inr (List.mem_append_left _ (List.mem_filter.2 ⟨hx, by simpa using hr⟩))

theorem inv_clean (h : Inv s) (hp : s.progs[i]? = some p) (hpc : p.pc = .touched) :
    Inv (s.forget.put i { p with pc := .flushed }) := by
  have hg := h.good i p hp
  have hnone := hg.no_child (by simp [hpc])
  have hin := hg.collected_inside (Or.inr hpc)
  have hgrows : Grows s s.forget := ⟨fun _ hx => hx, fun _ hx => hx, fun _ hx => hx⟩
  refine inv_forget h hp rfl rfl (by simp [Sys.forget]) hgrows rfl rfl (fun _ => hin) (Or.inr (hg.mode hin))
    (by simp) (fun _ => rfl) (by simp [hnone]) (by simp [hg.flushes (by simp [hpc])]) fun x hx => ?_
  rcases List.mem_append.1 hx with hx | hx
  · -- all of them were collected, and are real or were missed
    obtain ⟨hmem, hreal⟩ := List.mem_filter.1 hx
    rw [hg.ia (Or.inr hpc)] at hmem
    exact Or.inr (Or.inl ((hg.touched hpc x hmem).resolve_left (by simpa using hreal)))
  · exact Or.inl hx

theorem inv_fork (h : Inv s) (hp : s.progs[i]? = some p)
    (hpc : p.tool = .mount true ∧ p.pc = .flushed ∨ p.tool = .mount false ∧ p.pc = .start) :
    Inv (s.put i { p with pc := .forked, child := .forked }) := by
  obtain ⟨htool, hpc⟩ | ⟨htool, hpc⟩ := hpc
  · exact inv_quiet h hp rfl rfl rfl rfl (Grows.refl s) rfl rfl
      (fun _ => by simp [Prog.inside, hpc, htool, Tool.flushes]) (by simp) (by simp)
      (fun _ => Or.inl (by simp [Prog.armed, hpc, htool, Tool.flushes])) (by simp) (by simp)
  · exact inv_quiet h hp rfl rfl rfl rfl (Grows.refl s) rfl rfl (by simp [Prog.inside, htool, Tool.flushes]) (by simp)
      (by simp) (by simp [Prog.armed, htool, Tool.flushes]) (by simp) (by simp)

theorem inv_close (h : Inv s) (hp : s.progs[i]? = some p) (hpc : p.pc = .forked) :
    Inv (s.put i { p with pc := .closed }) := by
  refine inv_quiet h hp rfl rfl rfl rfl (Grows.refl s) rfl rfl (fun hin => ?_) (by simp) (by simp)
    (fun ha => Or.inl (by simpa [Prog.armed, hpc] using ha)) (by simp) (by simp)
  simp only [Prog.inside, Bool.and_eq_true] at hin ⊢
  exact ⟨hin.1, by simp [hpc]⟩

theorem inv_exec (h : Inv s) (hp : s.progs[i]? = some p) (hpc : p.pc = .flushed) (htool : p.tool = .umount) :
    Inv (s.put i { p with pc := .execed }) := by
  have hnone := (h.good i p hp).no_child (by simp [hpc])
  exact inv_quiet h hp rfl rfl rfl rfl (Grows.refl s) rfl rfl
    (fun _ => by simp [Prog.inside, hpc, htool, Tool.flushes]) (by simp) (by simp)
    (fun _ => Or.inl (by simp [Prog.armed, hpc, htool, Tool.flushes])) (by simp [hnone])
    (by simp [htool, Tool.flushes])

theorem inv_umount (h : Inv s) (hp : s.progs[i]? = some p) (hpc : p.pc = .execed)
    (hown : s.mode = none ∨ s.mode = some i) :
    Inv ({ s.forget with mounted := false }.put i { p with pc := .ended }) := by
  have hg := h.good i p hp
  have hnone := hg.no_child (by simp [hpc])
  have harmed : p.armed := by simp [Prog.armed, hpc, hg.flushes (by simp [hpc])]
  have hgrows : Grows s { s.forget with mounted := false } := ⟨fun _ hx => hx, fun _ hx => hx, fun _ hx => hx⟩
  refine inv_forget h hp rfl rfl (by simp [Sys.forget]) hgrows rfl rfl (by simp [Prog.inside, hnone]) hown (by simp)
    (by simp [Prog.armed, hnone]) (by simp) (by simp) fun x hx => ?_
  rcases List.mem_append.1 hx with hx | hx
  · exact Or.inr (Or.inr (Or.inr (armed_excused hg harmed (List.mem_filter.1 hx).1)))
  · exact Or.inl hx

theorem inv_fin (h : Inv s) (hp : s.progs[i]? = some p) : Inv (s.put i { p with pc := .ended }) := by
  refine inv_quiet h hp rfl rfl rfl rfl (Grows.refl s) rfl rfl (fun hin => ?_) (by simp) (by simp)
    (fun ha => Or.inl ?_) (by simp) (by simp)
  · simp only [Prog.inside, Bool.false_or, Bool.and_eq_true, Bool.or_eq_true] at hin ⊢
    exact ⟨hin.1, Or.inr hin.2⟩
  · simp only [Prog.armed, Bool.and_eq_true, Bool.or_eq_true] at ha ⊢
    exact ⟨ha.1, by simpa [or_assoc] using Or.inr (Or.inr (by simpa using ha.2))⟩

theorem inv_child_exec (h : Inv s) (hp : s.progs[i]? = some p) (hpc : p.child = .forked) :
    Inv (s.put i { p with child := .execed }) := by
  have hg := h.good i p hp
  refine inv_quiet h hp rfl rfl rfl rfl (Grows.refl s) rfl rfl (fun hin => ?_) hg.ia hg.touched
    (fun ha => Or.inl ?_) (fun _ => hg.child (by simp [hpc])) hg.outside
  · simp only [Prog.inside, Bool.and_eq_true] at hin ⊢
    exact ⟨hin.1, by simp [hpc]⟩
  · simp only [Prog.armed, Bool.and_eq_true] at ha ⊢
    exact ⟨ha.1, by simp [hpc]⟩

theorem inv_child_mount (h : Inv s) (hp : s.progs[i]? = some p) (hpc : p.child = .execed)
    (hown : s.mode = none ∨ s.mode = some i) (gone : List ℕ) :
    Inv ((s.drop p gone).put i { p with child := .mounted }) := by
  have hg := h.good i p hp
  have hplace := hg.child (by simp [hpc])
  have hgrows : Grows s (s.drop p gone) := by
    refine ⟨fun _ hx => hx, fun _ hx => hx, fun x hx => ?_⟩
    simp only [Sys.drop]
    split_ifs
    · exact hx
    · exact List.mem_append_right _ hx
  refine inv_forget h hp rfl rfl (fun x hx => (List.mem_filter.1 hx).1) hgrows rfl rfl
    (fun hin => by simpa [Prog.inside, hpc] using hin) hown ?_ ?_ (fun _ => hplace) hg.outside fun x hx => ?_
  · rcases hplace with h | h | h <;> simp [h]
  · rcases hplace with h | h | h <;> simp [Prog.armed, h]
  · rcases List.mem_append.1 hx with hx | hx
    · right
      cases hfl : p.tool.flushes with
      | true =>
        have harmed : p.armed := by simp [Prog.armed, hpc, hfl]
        exact Or.inr (Or.inr (armed_excused hg harmed (List.mem_filter.1 hx).1))
      | false =>
        refine Or.inr (Or.inl ?_)
        simp only [Sys.drop, hfl, Bool.false_eq_true, if_false]
        exact List.mem_append_left _ hx
    · exact Or.inl hx

theorem inv_child_end (h : Inv s) (hp : s.progs[i]? = some p) (hpc : p.child ≠ .none) :
    Inv (s.put i { p with child := .ended }) := by
  have hg := h.good i p hp
  refine inv_quiet h hp rfl rfl rfl rfl (Grows.refl s) rfl rfl (fun hin => ?_) hg.ia hg.touched
    (fun ha => Or.inl ?_) (fun _ => hg.child hpc) hg.outside
  · simp only [Prog.inside, Bool.or_false, Bool.and_eq_true, Bool.or_eq_true] at hin ⊢
    exact ⟨hin.1, Or.inl hin.2⟩
  · simp only [Prog.armed, Bool.and_eq_true] at ha ⊢
    refine ⟨ha.1, ?_⟩
    have hplace : p.pc = .flushed ∧ p.tool ≠ .auplink ∨ p.pc = .execed := by simpa using ha.2
    rcases hplace with ⟨hpc, htool⟩ | hpc
    · simp [hpc, htool]
    · simp [hpc]

/-- **Every call** keeps the invariant. -/
theorem inv_call (h : Inv s) (hp : s.progs[i]? = some p) (c : Call) (hc : call s i p c = some t) : Inv t := by
  cases c
  all_goals
    rw [call, Option.ite_none_right_eq_some] at hc
    obtain ⟨hguard, hc⟩ := hc
    rw [← Option.some.inj hc]
  case «open» => exact inv_open h hp hguard.1 hguard.2
  case enter => exact inv_enter h hp hguard.1 hguard.2.2
  case collect => exact inv_collect h hp hguard
  case walk reached => exact inv_walk h hp hguard reached
  case clean => exact inv_clean h hp hguard
  case fork => exact inv_fork h hp hguard
  case close => exact inv_close h hp hguard
  case exec => exact inv_exec h hp hguard.1 hguard.2
  case umount => exact inv_umount h hp hguard.1 hguard.2.2
  case fin => exact inv_fin h hp
  case child_exec => exact inv_child_exec h hp hguard
  case child_mount gone => exact inv_child_mount h hp hguard.1 hguard.2.2 gone
  case child_end => exact inv_child_end h hp hguard

end Call

/-- a helper that is not in the mode, but has its call before it, has lost its descriptor by exec(2) -/
theorem armed_outside {p : Prog} (ha : p.armed) (hout : ¬p.inside) : p.cloexec := by
  obtain ⟨tool, cloexec, pc, child, ia, gap⟩ := p
  rw [Prog.armed, Bool.and_eq_true] at ha
  obtain ⟨hflushes, ha⟩ := ha
  rw [Prog.inside, hflushes] at hout
  cases cloexec
  · cases pc <;> cases child <;> simp at ha hout
  · rfl

theorem noted_cases (x : ℕ) (p : Prog) :
    p.armed ∧ p.noted x = { p with gap := x :: p.gap } ∨ ¬p.armed ∧ p.noted x = p := by
  rw [Prog.noted]
  by_cases ha : p.armed
  · exact Or.inl ⟨ha, if_pos ha⟩
  · exact Or.inr ⟨ha, if_neg ha⟩

theorem inv_link {s : Sys} (h : Inv s) (hfree : s.mode = none) :
    Inv { s with mem := s.made :: s.mem, made := s.made + 1, progs := s.progs.map (Prog.noted s.made) } := by
  have hout : ∀ (i : ℕ) (p : Prog), s.progs[i]? = some p → ¬p.inside := by
    intro i p hp hin
    have hm := (h.good i p hp).mode hin
    rw [hfree] at hm
    cases hm
  refine ⟨fun i q hq => ?_, fun i hi => ?_, fun x hx => ?_⟩
  · rw [List.getElem?_map, Option.map_eq_some_iff] at hq
    obtain ⟨p, hp, rfl⟩ := hq
    have hg := h.good i p hp
    have hp_out := hout i p hp
    obtain ⟨ha, heq⟩ | ⟨ha, heq⟩ := noted_cases s.made p
    · rw [heq]
      exact {
        mode := fun hin => absurd hin hp_out
        ia := fun hpc => absurd (hg.collected_inside hpc) hp_out
        touched := hg.touched
        empty := fun _ hm => absurd (hfree.symm.trans hm) (Option.some_ne_none i).symm
        gap := fun _ hm x hx => by
          rcases List.mem_cons.1 hx with rfl | hx
          · exact List.mem_cons_self
          · exact List.mem_cons_of_mem _ (hg.gap ha hm x hx)
        flag := fun _ => armed_outside ha hp_out
        child := hg.child
        outside := hg.outside }
    · rw [heq]
      exact {
        mode := hg.mode
        ia := fun hpc => absurd (hg.collected_inside hpc) hp_out
        touched := hg.touched
        empty := fun ha' => absurd ha' ha
        gap := fun ha' => absurd ha' ha
        flag := hg.flag
        child := hg.child
        outside := hg.outside }
  · exact absurd (hfree.symm.trans hi) (Option.some_ne_none i).symm
  · refine (h.lost x hx).imp_right (Or.imp_right fun ⟨p, hp, hc, hgap⟩ => ⟨_, List.mem_map_of_mem hp, ?_⟩)
    obtain ⟨-, heq⟩ | ⟨-, heq⟩ := noted_cases s.made p
    · rw [heq]
      exact ⟨hc, List.mem_cons_of_mem _ hgap⟩
    · rw [heq]
      exact ⟨hc, hgap⟩

theorem inv_spawn {s : Sys} (h : Inv s) (tool : Tool) (cloexec : Bool) :
    Inv { s with progs := s.progs ++ [⟨tool, cloexec, .start, .none, [], []⟩] } := by
  refine ⟨fun i p hp => ?_, fun i hi => ?_, fun x hx => ?_⟩
  · rw [List.getElem?_append] at hp
    split_ifs at hp with hlt
    · have hg := h.good i p hp
      exact ⟨hg.mode, hg.ia, hg.touched, hg.empty, hg.gap, hg.flag, hg.child, hg.outside⟩
    · obtain rfl := List.mem_singleton.1 (List.mem_of_getElem? hp)
      constructor <;> simp [Prog.inside, Prog.armed]
  · obtain ⟨p, hp, hin⟩ := h.holder i hi
    have hlt := (List.getElem?_eq_some_iff.1 hp).1
    exact ⟨p, by rw [List.getElem?_append_left hlt, hp], hin⟩
  · exact (h.lost x hx).imp_right (Or.imp_right fun ⟨p, hp, hrest⟩ => ⟨p, List.mem_append_left _ hp, hrest⟩)

theorem step_inv (s : Sys) (a : Act) (t : Sys) (h : Inv s) (ht : step s a = some t) : Inv t := by
  cases a with
  | spawn tool cloexec => exact Option.some.inj ht ▸ inv_spawn h tool cloexec
  | link =>
    rw [step, Option.ite_none_right_eq_some] at ht
    exact Option.some.inj ht.2 ▸ inv_link h ht.1.2
  | run i c =>
    obtain ⟨p, hp, hc⟩ := Option.bind_eq_some_iff.1 ht
    exact inv_call h hp c hc

theorem init_inv : Inv init := ⟨by simp [init], by simp [init], by simp [init]⟩

theorem run_inv {as : List Act} {s : Sys} (h : exec step init as = some s) : Inv s :=
  exec_invariant step Inv step_inv init_inv h

/-- **A flush is alone.** What it has collected is what the kernel has, until it has been forgotten, and no other
program is in the mode. -/
theorem flush_atomic {as : List Act} {s : Sys} (h : exec step init as = some s) {i : ℕ} {p : Prog}
    (hp : s.progs[i]? = some p) (hpc : p.pc = .collected ∨ p.pc = .touched) :
    s.mem = p.ia ∧ ∀ j q, s.progs[j]? = some q → q.inside → j = i := by
  have hinv := run_inv h
  have hg := hinv.good i p hp
  refine ⟨hg.ia hpc, fun j q hq hin => ?_⟩
  have hmode := hg.mode (hg.collected_inside hpc)
  rw [(hinv.good j q hq).mode hin, Option.some.injEq] at hmode
  exact hmode

/-! ## What is lost -/

/-- in a run, a walk did not reach x, though it was collected -/
def Missed (as : List Act) (x : ℕ) : Prop :=
  ∃ (pre post : List Act) (s : Sys) (i : ℕ) (reached : List ℕ) (p : Prog), as = pre ++ .run i (.walk reached) :: post ∧
    exec step init pre = some s ∧ s.progs[i]? = some p ∧ x ∈ p.ia ∧ x ∉ reached

/-- in a run, x was made when a helper had flushed and had its call before it, without the descriptor -/
def MadeBetween (as : List Act) (x : ℕ) : Prop :=
  ∃ (pre post : List Act) (s : Sys) (i : ℕ) (p : Prog), as = pre ++ .link :: post ∧ exec step init pre = some s ∧
    s.made = x ∧ s.progs[i]? = some p ∧ p.armed ∧ ¬p.inside ∧ p.cloexec

/-- in a run, the mount(2) of a mount.aufs that had not flushed made the kernel forget x, which was not real yet -/
def Unflushed (as : List Act) (x : ℕ) : Prop :=
  ∃ (pre post : List Act) (s : Sys) (i : ℕ) (gone : List ℕ) (p : Prog), as = pre ++ .run i (.child_mount gone) :: post ∧
    exec step init pre = some s ∧ s.progs[i]? = some p ∧ p.tool = .mount false ∧ x ∈ s.mem ∧ x ∈ gone ∧ x ∉ s.real

theorem Missed.snoc {as : List Act} {x : ℕ} (h : Missed as x) (a : Act) : Missed (as ++ [a]) x := by
  obtain ⟨pre, post, s, i, reached, p, rfl, hrest⟩ := h
  exact ⟨pre, post ++ [a], s, i, reached, p, by simp, hrest⟩

theorem MadeBetween.snoc {as : List Act} {x : ℕ} (h : MadeBetween as x) (a : Act) : MadeBetween (as ++ [a]) x := by
  obtain ⟨pre, post, s, i, p, rfl, hrest⟩ := h
  exact ⟨pre, post ++ [a], s, i, p, by simp, hrest⟩

theorem Unflushed.snoc {as : List Act} {x : ℕ} (h : Unflushed as x) (a : Act) : Unflushed (as ++ [a]) x := by
  obtain ⟨pre, post, s, i, gone, p, rfl, hrest⟩ := h
  exact ⟨pre, post ++ [a], s, i, gone, p, by simp, hrest⟩

/-- every call changes the one program, only a walk misses anything, and only mount(2) can do without a flush -/
theorem call_put {s t : Sys} {i : ℕ} {p : Prog} {c : Call} (hc : call s i p c = some t) :
    ∃ t' p', t = Sys.put t' i p' ∧ t'.progs = s.progs ∧ p'.gap = p.gap ∧
      (t'.missed = match c with
        | .walk reached => p.ia.filter (· ∉ reached) ++ s.missed
        | _ => s.missed) ∧
      t'.unflushed = match c with
        | .child_mount gone => (s.drop p gone).unflushed
        | _ => s.unflushed := by
  cases c
  all_goals
    rw [call, Option.ite_none_right_eq_some] at hc
    exact ⟨_, _, (Option.some.inj hc.2).symm, rfl, rfl, rfl, rfl⟩

/-- what a step adds to what was missed -/
theorem step_missed {s t : Sys} {a : Act} (ht : step s a = some t) {x : ℕ} (hx : x ∈ t.missed) :
    x ∈ s.missed ∨ ∃ i reached p, a = .run i (.walk reached) ∧ s.progs[i]? = some p ∧ x ∈ p.ia ∧ x ∉ reached := by
  cases a with
  | spawn tool cloexec =>
    obtain rfl := Option.some.inj ht
    exact Or.inl hx
  | link =>
    rw [step, Option.ite_none_right_eq_some] at ht
    obtain rfl := Option.some.inj ht.2
    exact Or.inl hx
  | run i c =>
    obtain ⟨p, hp, hc⟩ := Option.bind_eq_some_iff.1 ht
    obtain ⟨t', p', rfl, -, -, hmissed, -⟩ := call_put hc
    rw [show (t'.put i p').missed = t'.missed from rfl, hmissed] at hx
    cases c with
    | walk reached =>
      rcases List.mem_append.1 hx with hx | hx
      · obtain ⟨hia, hr⟩ := List.mem_filter.1 hx
        exact Or.inr ⟨i, reached, p, rfl, hp, hia, by simpa using hr⟩
      · exact Or.inl hx
    | _ => exact Or.inl hx

theorem not_flushes {tool : Tool} (h : ¬tool.flushes = true) : tool = .mount false := by
  cases tool with
  | mount flush => rw [show flush = false from Bool.eq_false_iff.2 h]
  | auplink => exact absurd rfl h
  | umount => exact absurd rfl h

/-- what a step adds to what was forgotten without a flush -/
theorem step_unflushed {s t : Sys} {a : Act} (ht : step s a = some t) {x : ℕ} (hx : x ∈ t.unflushed) :
    x ∈ s.unflushed ∨ ∃ i gone p, a = .run i (.child_mount gone) ∧ s.progs[i]? = some p ∧ p.tool = .mount false ∧
      x ∈ s.mem ∧ x ∈ gone ∧ x ∉ s.real := by
  cases a with
  | spawn tool cloexec =>
    obtain rfl := Option.some.inj ht
    exact Or.inl hx
  | link =>
    rw [step, Option.ite_none_right_eq_some] at ht
    obtain rfl := Option.some.inj ht.2
    exact Or.inl hx
  | run i c =>
    obtain ⟨p, hp, hc⟩ := Option.bind_eq_some_iff.1 ht
    obtain ⟨t', p', rfl, -, -, -, hunflushed⟩ := call_put hc
    rw [show (t'.put i p').unflushed = t'.unflushed from rfl, hunflushed] at hx
    cases c with
    | child_mount gone =>
      simp only [Sys.drop] at hx
      split_ifs at hx with hfl
      · exact Or.inl hx
      · rcases List.mem_append.1 hx with hx | hx
        · obtain ⟨hmem, hgone⟩ := List.mem_filter.1 hx
          have hgone : x ∈ gone ∧ x ∉ s.real := of_decide_eq_true hgone
          exact Or.inr ⟨i, gone, p, rfl, hp, not_flushes hfl, hmem, hgone⟩
        · exact Or.inl hx
    | _ => exact Or.inl hx

/-- what a step adds to what was made behind a flush -/
theorem step_gap {s t : Sys} {a : Act} (h : Inv s) (ht : step s a = some t) {x : ℕ} {q : Prog} (hq : q ∈ t.progs)
    (hx : x ∈ q.gap) : (∃ p ∈ s.progs, x ∈ p.gap) ∨
      a = .link ∧ s.made = x ∧ ∃ (i : ℕ) (p : Prog), s.progs[i]? = some p ∧ p.armed ∧ ¬p.inside ∧ p.cloexec := by
  cases a with
  | spawn tool cloexec =>
    obtain rfl := Option.some.inj ht
    rcases List.mem_append.1 hq with hq | hq
    · exact Or.inl ⟨q, hq, hx⟩
    · rw [List.mem_singleton.1 hq] at hx
      exact absurd hx List.not_mem_nil
  | link =>
    rw [step, Option.ite_none_right_eq_some] at ht
    obtain ⟨⟨-, hfree⟩, ht⟩ := ht
    obtain rfl := Option.some.inj ht
    obtain ⟨p, hp, rfl⟩ := List.mem_map.1 hq
    obtain ⟨ha, heq⟩ | ⟨-, heq⟩ := noted_cases s.made p
    · rw [heq] at hx
      rcases List.mem_cons.1 hx with hx | hx
      · right
        obtain ⟨i, hi⟩ := List.mem_iff_getElem?.1 hp
        have hout : ¬p.inside := by
          intro hin
          have hm := (h.good i p hi).mode hin
          rw [hfree] at hm
          cases hm
        exact ⟨rfl, hx.symm, i, p, hi, ha, hout, armed_outside ha hout⟩
      · exact Or.inl ⟨p, hp, hx⟩
    · rw [heq] at hx
      exact Or.inl ⟨p, hp, hx⟩
  | run i c =>
    obtain ⟨p, hp, hc⟩ := Option.bind_eq_some_iff.1 ht
    obtain ⟨t', p', rfl, hprogs, hgap, -, -⟩ := call_put hc
    rw [show (t'.put i p').progs = t'.progs.set i p' from rfl, hprogs] at hq
    rcases List.mem_or_eq_of_mem_set hq with hq | rfl
    · exact Or.inl ⟨q, hq, hx⟩
    · exact Or.inl ⟨p, List.mem_of_getElem? hp, hgap ▸ hx⟩

/-- where what the three histories hold comes from -/
theorem run_history (as : List Act) : ∀ s, exec step init as = some s →
    (∀ x ∈ s.missed, Missed as x) ∧ (∀ x ∈ s.unflushed, Unflushed as x) ∧
      ∀ p ∈ s.progs, ∀ x ∈ p.gap, MadeBetween as x := by
  induction as using List.reverseRecOn with
  | nil =>
    intro s h
    obtain rfl := Option.some.inj h
    simp [init]
  | append_singleton as a ih =>
    intro s h
    obtain ⟨t, ht, ha⟩ := (exec_append step).1 h
    obtain ⟨u, hu, hnil⟩ := (exec_cons step).1 ha
    rw [exec_nil, Option.some.injEq] at hnil
    subst hnil
    obtain ⟨hmissed, hunflushed, hgap⟩ := ih t ht
    refine ⟨fun x hx => ?_, fun x hx => ?_, fun q hq x hx => ?_⟩
    · rcases step_missed hu hx with hx | ⟨i, reached, p, rfl, hrest⟩
      · exact (hmissed x hx).snoc a
      · exact ⟨as, [], t, i, reached, p, rfl, ht, hrest⟩
    · rcases step_unflushed hu hx with hx | ⟨i, gone, p, rfl, hrest⟩
      · exact (hunflushed x hx).snoc a
      · exact ⟨as, [], t, i, gone, p, rfl, ht, hrest⟩
    · rcases step_gap (run_inv ht) hu hq hx with ⟨p, hp, hx⟩ | ⟨rfl, hmade, i, p, hrest⟩
      · exact (hgap p hp x hx).snoc a
      · exact ⟨as, [], t, i, p, rfl, ht, hmade, hrest⟩

/-- **What is lost.** A pseudo-link that the kernel has forgotten before it was made real was missed by a walk, or was
made between the flush of a helper and its mount(2) or umount(2), after exec(2) had closed the descriptor, or was
forgotten by a remount for which mount.aufs had not flushed. -/
theorem lost_when {as : List Act} {s : Sys} (h : exec step init as = some s) {x : ℕ} (hx : x ∈ s.lost) :
    Missed as x ∨ MadeBetween as x ∨ Unflushed as x := by
  obtain ⟨hmissed, hunflushed, hgap⟩ := run_history as s h
  rcases (run_inv h).lost x hx with hm | hu | ⟨p, hp, -, hg⟩
  · exact Or.inl (hmissed x hm)
  · exact Or.inr (Or.inr (hunflushed x hu))
  · exact Or.inr (Or.inl (hgap p hp x hg))

/-- a remount: mount.aufs has flushed and closed its descriptor, mount(8) has been started -/
def remounting : List Act :=
  [.spawn (.mount true) true, .link, .run 0 .open, .run 0 .enter, .run 0 .collect, .run 0 (.walk [0]), .run 0 .clean,
    .run 0 .fork, .run 0 .close, .run 0 .child_exec]

/-- the flush of two pseudo-links -/
theorem flush_atomic_two : ∃ s, exec step init
    [.link, .link, .spawn .auplink false, .run 0 .open, .run 0 .enter, .run 0 .collect] = some s ∧ s.mem = [1, 0] :=
  ⟨_, rfl, (@flush_atomic [.link, .link, .spawn .auplink false, .run 0 .open, .run 0 .enter, .run 0 .collect] _ rfl 0 _
    rfl (Or.inl rfl)).1⟩

/-- the pseudo-link that is made then, and the one behind it that a remount without a flush makes the kernel forget -/
def remounted_twice : List Act :=
  remounting ++ [.link, .run 0 (.child_mount [1]), .run 0 .child_end, .link, .spawn (.mount false) true, .run 1 .fork,
    .run 1 .child_exec, .run 1 (.child_mount [2])]

theorem lost_when_remounted :
    (Missed remounted_twice 1 ∨ MadeBetween remounted_twice 1 ∨ Unflushed remounted_twice 1) ∧
      (Missed remounted_twice 2 ∨ MadeBetween remounted_twice 2 ∨ Unflushed remounted_twice 2) :=
  ⟨lost_when rfl (by decide), lost_when rfl (by decide)⟩

end AufsUtil.Mount.Maintenance
