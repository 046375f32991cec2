/-
auplink flush (`plink.c`, do_plink): collect the pseudo-links of the writable branches, touch every path of the mount
point whose inode number is among them, so that aufs copies it up, then tell the kernel to forget its pseudo-links and
unlink the collected names.

- `do_plink`: the operations it issues, in order (`Op`), up to an AuFin.
- `Walker`: what is relied on of nftw(3): it calls the callback on what it meets, in order, until it meets an error or
  the callback tells it to end. `au_nftw_walker`: au_nftw.c does so.
- `flush_keeps_plinks_iff`: every collected path is copied up before anything is dropped exactly if nothing is dropped
  at all, or the walk meets every collected path before it ends.
- `flush_drops_unvisited`: it does not always: the result of the walk is ignored.

What the model keeps of C: the names and numbers as build_array takes them (strtoull with base 0), the callback's
choice of chown and lchown, every AuFin. A branch, its plink directory, the answers of all system calls and of
the allocations are inputs (`Sys`). The GNU nftw, which a glibc build uses, is a parameter; there
FTW_SKIP_SUBTREE does not end the walk.
-/
import Mathlib.Tactic
import AufsUtil.Plink.Prune
import AufsUtil.Fhsm.Table

namespace AufsUtil.Plink

open AufsUtil.CStr
open AufsUtil.Fhsm (Brinfo)

/-! ## strtoull -/

def isspace (c : UInt8) : Bool := c == 32 || (9 ≤ c && c ≤ 13)

/-- the value of a digit or a letter -/
def digit (c : UInt8) : Option ℕ :=
  if 48 ≤ c && c ≤ 57 then some (c.toNat - 48)
  else if 97 ≤ c && c ≤ 122 then some (c.toNat - 87)
  else if 65 ≤ c && c ≤ 90 then some (c.toNat - 55)
  else none

/-- the base that base 0 stands for, and the digits: 0x for sixteen, 0 for eight, else ten -/
def radix : Bytes → ℕ × Bytes
  | 48 :: x :: d :: s =>
    if (x == 120 || x == 88) && (digit d).any (· < 16) then (16, d :: s) else (8, 48 :: x :: d :: s)
  | 48 :: s => (8, 48 :: s)
  | s => (10, s)

/-- strtoull(s, NULL, 0); `none` is ULLONG_MAX with ERANGE -/
def strtoull (s : Bytes) : Option ℕ :=
  let s := s.dropWhile isspace
  let r := radix (if s.head? = some 45 ∨ s.head? = some 43 then s.tail else s)
  let v := ((r.2.map fun c => (digit c).filter (· < r.1)).takeWhile Option.isSome).foldl (fun a d => a * r.1 + d.getD 0) 0
  if v ≥ 2 ^ 64 then none
  else some (if s.head? = some 45 then (2 ^ 64 - v) % 2 ^ 64 else v)

/-! ## Collecting -/

def AuBrPerm_RW : ℕ := 1

def au_br_writable (brperm : ℕ) : Bool := brperm &&& AuBrPerm_RW != 0

/-- the answers of the system besides the walk: for a plink directory, is it there and what does it hold; which
allocations succeed, for a branch and for a name of its plink directory; the rest of do_plink -/
structure Sys where
  access : Bytes → Bool
  opendir : Bytes → Option (List Bytes)
  malloc : ℕ → Bool
  realloc : Bytes → Bytes → Bool
  getrlimit : Option ℕ
  chown : Chown
  /-- write(proc_fd, "clean", 5) returns 5 -/
  clean : Bool
  unlink : Bytes → Bool

/-- name_array and ino_array -/
structure Arrays where
  na : List Bytes
  ia : List ℕ
deriving DecidableEq, Repr

/-- one entry of a plink directory; `none` is AuFin -/
def build_one (S : Sys) (plink_dir : Bytes) (a : Arrays) (d : Bytes) : Option Arrays :=
  if dots d then some a
  else if !S.realloc plink_dir d then none
  else
    match d.findIdx? (· = 46) with
    | none => none
    | some p =>
      match strtoull (d.take p) with
      | none => none
      | some ino => some ⟨a.na ++ [child plink_dir d], a.ia ++ [ino]⟩

def build_array (S : Sys) (plink_dir : Bytes) (a : Arrays) : Option Arrays :=
  if !S.access plink_dir then some a
  else
    match S.opendir plink_dir with
    | none => none
    | some names => names.foldlM (build_one S plink_dir) a

/-- the loop over the branches; i is the index of the first of them -/
def collect (S : Sys) : ℕ → List Brinfo → Arrays → Option Arrays
  | _, [], a => some a
  | i, b :: bs, a =>
    if !au_br_writable b.perm then collect S (i + 1) bs a
    else if !S.malloc i then none
    else (build_array S (child b.path AUFS_WH_PLINKDIR) a).bind (collect S (i + 1) bs)

/-! ## do_plink -/

/-- what do_plink does to the mount point, the kernel and the branches -/
inductive Op where
  /-- chown or lchown of the path returned 0: it is copied up -/
  | copied (path : Bytes)
  /-- "clean" is written to the kernel -/
  | clean
  | unlink (name : Bytes)
deriving DecidableEq, Repr

/-- does ftw_cpup touch the path of this call? -/
def touches (ia : List ℕ) (c : Call) : Bool :=
  c.path.drop c.base ≠ AUFS_WH_PLINKDIR ∧ ¬ (c.type = .D ∨ c.type = .DNR) ∧ ia_test ia c.st.ino

/-- what a call of the callback does -/
def copied (C : Chown) (ia : List ℕ) : Cmd → Call → Option Op
  | .list, _ => none
  | .flush, c | .cpup, c => if touches ia c && C.run c.path c.st then some (.copied c.path) else none

/-- the number of descriptors that the walk may use -/
def nopenfd (rlim_cur : ℕ) : ℕ :=
  if rlim_cur > 1024 ∨ rlim_cur = 0 then 1024 else if rlim_cur > 20 then rlim_cur - 10 else rlim_cur

/-- the loop over the collected names; it ends in AuFin at the first unlink that fails -/
def unlink_loop (S : Sys) : List Bytes → List Op
  | [] => []
  | n :: ns => .unlink n :: if S.unlink n then unlink_loop S ns else []

/-- do_plink: the operations up to its return or its AuFin. `nftw` is the walk of the mount point with a callback and a
number of descriptors: what it returns, and the calls it made -/
def do_plink (S : Sys) (nftw : (Call → Ret) → ℕ → Ret × List Call) (cmd : Cmd) (br : List Brinfo) : List Op :=
  match collect S 0 br ⟨[], []⟩ with
  | none => []
  | some a =>
    if a.ia = [] then []
    else
      match S.getrlimit with
      | none => []
      | some rlim_cur =>
        let w := nftw (func S.chown a.ia cmd) (nopenfd rlim_cur)
        let ops := w.2.filterMap (copied S.chown a.ia cmd)
        if w.1 = .fin then ops
        else if cmd ≠ .flush then ops
        else ops ++ .clean :: if S.clean then unlink_loop S a.na else []

/-! ## The walk -/

/-- the C library's nftw with FTW_ACTIONRETVAL, or au_nftw.c -/
inductive Build where
  | glibc
  | other
deriving DecidableEq, Repr

/-- does the callback's return value end the walk -/
def Ends (b : Build) (r : Ret) : Bool :=
  match b with
  | .glibc => r ≠ .ret 0 ∧ r ≠ .ret FTW_SKIP_SUBTREE
  | .other => r ≠ .ret 0

/-- the callback is called on what is met, until an error is met or the callback ends the walk -/
def walked (b : Build) (fn : Call → Ret) : List Event → Ret × List Call
  | [] => (.ret 0, [])
  | .fail :: _ => (.ret (-1), [])
  | .call c :: es => if Ends b (fn c) then (fn c, [c]) else ((walked b fn es).1, c :: (walked b fn es).2)

/-- what do_plink relies on of its walk: with n descriptors it meets `es n`, the subtrees that the callback skips left
out, and the point where an error ends it -/
def Walker (b : Build) (nftw : (Call → Ret) → ℕ → Ret × List Call) (es : ℕ → List Event) : Prop :=
  ∀ C ia cmd n, nftw (func C ia cmd) n = walked b (func C ia cmd) (es n)

theorem walked_play (fn : Call → Ret) (es : List Event) : walked .other fn es = play fn es := by
  induction es with
  | nil => rfl
  | cons e es ih =>
    cases e with
    | fail => rfl
    | call c =>
      rw [walked, ih]
      by_cases hc : fn c = .ret 0
      · rw [play_on hc, if_neg (by simp [Ends, hc])]
      · rw [play_stop hc, if_pos (by simp [Ends, hc])]

/-- what au_nftw.c meets from cwd on -/
def met (W : World) (cwd : Bytes) (n : ℕ) : List Event :=
  if n = 0 then [] else if cwd.length > PATH_MAX then [.fail] else trail W n [] cwd

/-- the walk of a non-glibc build -/
def own_nftw (W : World) (cwd : Bytes) (fn : Call → Ret) (n : ℕ) : Ret × List Call :=
  ((au_nftw W cwd fn n plink_flags).ret, (au_nftw W cwd fn n plink_flags).calls)

theorem au_nftw_walker (W : World) (cwd : Bytes) : Walker .other (own_nftw W cwd) (met W cwd) := by
  intro C ia cmd n
  rw [walked_play]
  unfold own_nftw au_nftw met
  split_ifs
  · rfl
  · rfl
  · have h := do_nftw_play W (func C ia cmd) n [] cwd
    rw [h.ret, h.calls]

/-! ## What the walk reaches -/

/-- an error, or (au_nftw.c) a node that the callback skips -/
def ends_walk (b : Build) : Event → Prop
  | .fail => True
  | .call c => b = .other ∧ c.path.drop c.base = AUFS_WH_PLINKDIR

/-- the walk meets c before it ends -/
def Reached (b : Build) (es : List Event) (c : Call) : Prop :=
  ∃ pre post, es = pre ++ .call c :: post ∧ ∀ e ∈ pre, ¬ ends_walk b e

theorem reached_nil (b : Build) (c : Call) : ¬ Reached b [] c := by
  rintro ⟨pre, post, h, -⟩
  simp at h

theorem reached_cons (b : Build) (e : Event) (es : List Event) (c : Call) :
    Reached b (e :: es) c ↔ e = .call c ∨ (¬ ends_walk b e ∧ Reached b es c) := by
  refine ⟨?_, ?_⟩
  · rintro ⟨pre, post, h, hpre⟩
    cases pre with
    | nil =>
      rw [List.nil_append, List.cons.injEq] at h
      exact Or.inl h.1
    | cons x pre =>
      rw [List.cons_append, List.cons.injEq] at h
      exact Or.inr ⟨h.1 ▸ hpre x List.mem_cons_self, pre, post, h.2, fun y hy => hpre y (List.mem_cons_of_mem x hy)⟩
  · rintro (rfl | ⟨he, pre, post, rfl, hpre⟩)
    · exact ⟨[], es, rfl, by simp⟩
    · exact ⟨e :: pre, post, rfl, List.forall_mem_cons.2 ⟨he, hpre⟩⟩

/-- the chown of a path that the callback touches fails -/
def Fails (C : Chown) (ia : List ℕ) (c : Call) : Prop := touches ia c = true ∧ C.run c.path c.st = false

/-- the three things the callback does -/
theorem ftw_cpup_cases (C : Chown) (ia : List ℕ) (c : Call) :
    (c.path.drop c.base = AUFS_WH_PLINKDIR ∧ touches ia c = false ∧ ftw_cpup C ia c = .ret FTW_SKIP_SUBTREE) ∨
      (c.path.drop c.base ≠ AUFS_WH_PLINKDIR ∧ Fails C ia c ∧ ftw_cpup C ia c = .fin) ∨
      (c.path.drop c.base ≠ AUFS_WH_PLINKDIR ∧ ¬ Fails C ia c ∧ ftw_cpup C ia c = .ret 0) := by
  unfold ftw_cpup Fails touches
  by_cases hname : c.path.drop c.base = AUFS_WH_PLINKDIR
  · simp [hname]
  · by_cases hdir : c.type = .D ∨ c.type = .DNR
    · simp [hname, hdir, macros_of_plink_c.1]
    · by_cases hrun : (ia_test ia c.st.ino && !C.run c.path c.st) = true
      · rw [if_neg hname, if_neg hdir, if_pos hrun]
        simp only [Bool.and_eq_true, Bool.not_eq_eq_eq_not, Bool.not_true] at hrun
        simp [hname, hdir, hrun]
      · rw [if_neg hname, if_neg hdir, if_neg hrun]
        simp only [Bool.and_eq_true, Bool.not_eq_eq_eq_not, Bool.not_true, not_and] at hrun
        simp [hname, hdir, macros_of_plink_c.1]
        simpa using hrun

section Calls

variable {b : Build} {C : Chown} {ia : List ℕ} {es : List Event} {c : Call}

/-- what is claimed of the walk over the events es -/
structure Covers (b : Build) (C : Chown) (ia : List ℕ) (es : List Event) : Prop where
  fin : (walked b (ftw_cpup C ia) es).1 = .fin ↔ ∃ c, Reached b es c ∧ Fails C ia c
  calls : (walked b (ftw_cpup C ia) es).1 ≠ .fin → ∀ c, c ∈ (walked b (ftw_cpup C ia) es).2 ↔ Reached b es c

/-- the walk ends at c -/
theorem covers_end (hend : Ends b (ftw_cpup C ia c) = true) (hstop : ends_walk b (.call c) ∨ ftw_cpup C ia c = .fin)
    (hfin : ftw_cpup C ia c = .fin ↔ Fails C ia c) : Covers b C ia (.call c :: es) := by
  have hw : walked b (ftw_cpup C ia) (.call c :: es) = (ftw_cpup C ia c, [c]) := by rw [walked, if_pos hend]
  refine ⟨?_, ?_⟩
  · rw [hw, hfin]
    refine ⟨fun hf => ⟨c, (reached_cons _ _ _ _).2 (Or.inl rfl), hf⟩, ?_⟩
    rintro ⟨c', hr, hf⟩
    rcases hstop with hstop | hstop
    · rcases (reached_cons _ _ _ _).1 hr with he | ⟨hn, -⟩
      · rw [Event.call.injEq] at he
        exact he ▸ hf
      · exact absurd hstop hn
    · exact hfin.1 hstop
  · rw [hw]
    intro hne c'
    rw [reached_cons, List.mem_singleton]
    refine ⟨fun h => Or.inl (by rw [h]), ?_⟩
    rintro (he | ⟨hn, -⟩)
    · rw [Event.call.injEq] at he
      exact he.symm
    · exact absurd (hstop.resolve_right hne) hn

/-- the walk goes on after c -/
theorem covers_on (hend : Ends b (ftw_cpup C ia c) = false) (hstop : ¬ ends_walk b (.call c)) (hc : ¬ Fails C ia c)
    (h : Covers b C ia es) : Covers b C ia (.call c :: es) := by
  have hw : walked b (ftw_cpup C ia) (.call c :: es) =
      ((walked b (ftw_cpup C ia) es).1, c :: (walked b (ftw_cpup C ia) es).2) := by
    rw [walked, if_neg (by rw [hend]; simp)]
  refine ⟨?_, ?_⟩
  · rw [hw, h.fin]
    refine ⟨?_, ?_⟩
    · rintro ⟨c', hr, hf⟩
      exact ⟨c', (reached_cons _ _ _ _).2 (Or.inr ⟨hstop, hr⟩), hf⟩
    · rintro ⟨c', hr, hf⟩
      rcases (reached_cons _ _ _ _).1 hr with he | ⟨-, hr⟩
      · rw [Event.call.injEq] at he
        exact absurd (he ▸ hf) hc
      · exact ⟨c', hr, hf⟩
  · rw [hw]
    intro hne c'
    rw [reached_cons, List.mem_cons, h.calls hne c', Event.call.injEq]
    exact ⟨fun hx => hx.imp Eq.symm fun hr => ⟨hstop, hr⟩, fun hx => hx.imp Eq.symm And.right⟩

end Calls

/-- **The calls of the walk.** It ends in AuFin exactly if a chown fails on a path that is reached; if not, the calls
made are those reached. -/
theorem walked_covers (b : Build) (C : Chown) (ia : List ℕ) (es : List Event) : Covers b C ia es := by
  induction es with
  | nil =>
    refine ⟨?_, fun _ c => ?_⟩
    · simp [walked, reached_nil]
    · simp [walked, reached_nil]
  | cons e es ih =>
    cases e with
    | fail =>
      have hno : ∀ c, ¬ Reached b (.fail :: es) c := fun c hr => by
        rcases (reached_cons _ _ _ _).1 hr with he | ⟨hn, -⟩
        · cases he
        · exact hn trivial
      refine ⟨?_, fun _ c => ?_⟩
      · simp [walked, hno]
      · simp [walked, hno]
    | call c =>
      rcases ftw_cpup_cases C ia c with ⟨hname, ht, hr⟩ | ⟨hname, hf, hr⟩ | ⟨hname, hf, hr⟩
      · have hc : ¬ Fails C ia c := fun hf => by rw [hf.1] at ht; cases ht
        cases b with
        | glibc => exact covers_on (by rw [hr]; decide) (fun h => by cases h.1) hc ih
        | other =>
          refine covers_end (by rw [hr]; decide) (Or.inl ⟨rfl, hname⟩) ?_
          rw [hr]
          refine ⟨?_, fun h => absurd h hc⟩
          intro h
          cases h
      · refine covers_end (by rw [hr]; cases b <;> decide) (Or.inr hr) ?_
        exact ⟨fun _ => hf, fun _ => hr⟩
      · exact covers_on (by rw [hr]; cases b <;> decide) (fun h => hname h.2) hf ih

/-! ## Flush -/

/-- a path of the mount point at cwd that is not in a directory named AUFS_WH_PLINKDIR, nor bears that name -/
def Outside (cwd path : Bytes) : Prop :=
  ∃ comps : List Bytes, (∀ x ∈ comps, 47 ∉ x ∧ x ≠ AUFS_WH_PLINKDIR) ∧ path = cwd ++ comps.flatMap (47 :: ·)

/-- the paths to be made real: not directories, outside the plink directory, of a collected inode number. `inode` is the
tree under the mount point. -/
def Linked (inode : Bytes → Option Stat) (cwd : Bytes) (ia : List ℕ) (path : Bytes) : Prop :=
  ∃ st, inode path = some st ∧ st.mode ≠ .dir ∧ Outside cwd path ∧ st.ino ∈ ia

def Op.Drops : Op → Prop
  | .copied _ => False
  | .clean | .unlink _ => True

/-- whenever the kernel is told to clean or a name is unlinked, every linked path was copied up before -/
def KeepsPlinks (S : Sys) (nftw : (Call → Ret) → ℕ → Ret × List Call) (br : List Brinfo)
    (inode : Bytes → Option Stat) (cwd : Bytes) : Prop :=
  ∀ pre op post, do_plink S nftw .flush br = pre ++ op :: post → op.Drops →
    ∀ a, collect S 0 br ⟨[], []⟩ = some a → ∀ path, Linked inode cwd a.ia path → .copied path ∈ pre

/-- a chown fails on a path that the walk reaches, so that nothing is dropped; or it reaches every linked path -/
def ReachesAll (S : Sys) (b : Build) (es : ℕ → List Event) (br : List Brinfo) (inode : Bytes → Option Stat)
    (cwd : Bytes) : Prop :=
  ∀ a rlim_cur, collect S 0 br ⟨[], []⟩ = some a → a.ia ≠ [] → S.getrlimit = some rlim_cur →
    (∃ c, Reached b (es (nopenfd rlim_cur)) c ∧ Fails S.chown a.ia c) ∨
      ∀ path, Linked inode cwd a.ia path →
        ∃ c, Reached b (es (nopenfd rlim_cur)) c ∧ c.path = path ∧ touches a.ia c = true

/-- operations that begin with copies: what is dropped is dropped after them -/
theorem drops_after {cs rest : List Op} (hcs : ∀ op ∈ cs, ¬ op.Drops) (P : Bytes → Prop) :
    (∀ pre op post, cs ++ .clean :: rest = pre ++ op :: post → op.Drops → ∀ path, P path → .copied path ∈ pre) ↔
      ∀ path, P path → .copied path ∈ cs := by
  refine ⟨fun h => h cs .clean rest rfl trivial, ?_⟩
  intro h pre op post heq hop x hx
  rcases List.append_eq_append_iff.1 heq with ⟨mid, rfl, -⟩ | ⟨mid, rfl, hmid⟩
  · exact List.mem_append_left mid (h x hx)
  · cases mid with
    | nil => simpa using h x hx
    | cons y mid =>
      rw [List.cons_append, List.cons.injEq] at hmid
      exact absurd hop (hcs op (by rw [hmid.1]; simp))

theorem copied_eq_some {C : Chown} {ia : List ℕ} {c : Call} {op : Op} :
    copied C ia .flush c = some op ↔ touches ia c = true ∧ C.run c.path c.st = true ∧ op = .copied c.path := by
  simp only [copied]
  by_cases h : (touches ia c && C.run c.path c.st) = true
  · rw [if_pos h, Option.some.injEq]
    rw [Bool.and_eq_true] at h
    exact ⟨fun he => ⟨h.1, h.2, he.symm⟩, fun he => he.2.2.symm⟩
  · rw [if_neg h]
    rw [Bool.and_eq_true, not_and] at h
    refine ⟨?_, fun he => absurd he.2.1 (h he.1)⟩
    intro he
    cases he

theorem copied_drops {C : Chown} {ia : List ℕ} {cs : List Call} :
    ∀ op ∈ cs.filterMap (copied C ia .flush), ¬ op.Drops := by
  intro op hop
  obtain ⟨c, -, hc⟩ := List.mem_filterMap.1 hop
  rw [(copied_eq_some.1 hc).2.2]
  exact fun h => h

/-- which paths are copied up, when no chown failed -/
theorem mem_copied {b : Build} {C : Chown} {ia : List ℕ} {es : List Event} (hfin : ¬ ∃ c, Reached b es c ∧ Fails C ia c)
    (path : Bytes) :
    Op.copied path ∈ (walked b (ftw_cpup C ia) es).2.filterMap (copied C ia .flush) ↔
      ∃ c, Reached b es c ∧ c.path = path ∧ touches ia c = true := by
  have hcov := walked_covers b C ia es
  have hcalls := hcov.calls (mt hcov.fin.1 hfin)
  rw [List.mem_filterMap]
  refine ⟨?_, ?_⟩
  · rintro ⟨c, hc, hop⟩
    obtain ⟨ht, -, hp⟩ := copied_eq_some.1 hop
    rw [Op.copied.injEq] at hp
    exact ⟨c, (hcalls c).1 hc, hp.symm, ht⟩
  · rintro ⟨c, hr, rfl, ht⟩
    refine ⟨c, (hcalls c).2 hr, copied_eq_some.2 ⟨ht, ?_, rfl⟩⟩
    by_contra hrun
    exact hfin ⟨c, hr, ht, by simpa using hrun⟩

section Flush

variable {S : Sys} {b : Build} {nftw : (Call → Ret) → ℕ → Ret × List Call} {es : ℕ → List Event} {br : List Brinfo}
  {a : Arrays} {rlim_cur : ℕ}

/-- do_plink does nothing before it has numbers and a descriptor limit -/
theorem flush_nothing
    (h : ¬ ∃ a rlim_cur, collect S 0 br ⟨[], []⟩ = some a ∧ a.ia ≠ [] ∧ S.getrlimit = some rlim_cur) :
    do_plink S nftw .flush br = [] := by
  unfold do_plink
  cases hcol : collect S 0 br ⟨[], []⟩ with
  | none => rfl
  | some a =>
    simp only
    by_cases hia : a.ia = []
    · rw [if_pos hia]
    · rw [if_neg hia]
      cases hlim : S.getrlimit with
      | none => rfl
      | some rlim_cur => exact absurd ⟨a, rlim_cur, hcol, hia, hlim⟩ h

/-- then it copies up what the walk reaches, and drops the pseudo-links whatever the walk returned -/
theorem flush_ops (hw : Walker b nftw es) (hcol : collect S 0 br ⟨[], []⟩ = some a) (hia : a.ia ≠ [])
    (hlim : S.getrlimit = some rlim_cur) :
    do_plink S nftw .flush br =
      let w := walked b (ftw_cpup S.chown a.ia) (es (nopenfd rlim_cur))
      let cs := w.2.filterMap (copied S.chown a.ia .flush)
      if w.1 = .fin then cs else cs ++ .clean :: if S.clean then unlink_loop S a.na else [] := by
  have hwalk : nftw (func S.chown a.ia .flush) (nopenfd rlim_cur) =
      walked b (ftw_cpup S.chown a.ia) (es (nopenfd rlim_cur)) := hw S.chown a.ia .flush (nopenfd rlim_cur)
  simp only [do_plink, hcol, hlim, hwalk]
  rw [if_neg hia]
  rfl

end Flush

/-- **auplink flush.** Every linked path is copied up before anything is dropped exactly if nothing is
dropped (nothing was collected, or a chown fails on a path that the walk reaches), or the walk reaches every
linked path before it ends. -/
theorem flush_keeps_plinks_iff (S : Sys) (b : Build) (nftw : (Call → Ret) → ℕ → Ret × List Call) (es : ℕ → List Event)
    (br : List Brinfo) (inode : Bytes → Option Stat) (cwd : Bytes) (hw : Walker b nftw es) :
    KeepsPlinks S nftw br inode cwd ↔ ReachesAll S b es br inode cwd := by
  by_cases hdo : ∃ a rlim_cur, collect S 0 br ⟨[], []⟩ = some a ∧ a.ia ≠ [] ∧ S.getrlimit = some rlim_cur
  · obtain ⟨a, rlim_cur, hcol, hia, hlim⟩ := hdo
    have hops := flush_ops hw hcol hia hlim
    have hfin := (walked_covers b S.chown a.ia (es (nopenfd rlim_cur))).fin
    have hkeeps : KeepsPlinks S nftw br inode cwd ↔ ∀ pre op post, do_plink S nftw .flush br = pre ++ op :: post →
        op.Drops → ∀ path, Linked inode cwd a.ia path → .copied path ∈ pre := by
      simp only [KeepsPlinks, hcol, Option.some.injEq, forall_eq']
    have hreach : ReachesAll S b es br inode cwd ↔
        (∃ c, Reached b (es (nopenfd rlim_cur)) c ∧ Fails S.chown a.ia c) ∨ ∀ path, Linked inode cwd a.ia path →
          ∃ c, Reached b (es (nopenfd rlim_cur)) c ∧ c.path = path ∧ touches a.ia c = true := by
      refine ⟨fun h => h a rlim_cur hcol hia hlim, ?_⟩
      intro h a' rlim' hcol' _ hlim'
      rw [hcol, Option.some.injEq] at hcol'
      rw [hlim, Option.some.injEq] at hlim'
      rw [← hcol', ← hlim']
      exact h
    rw [hkeeps, hreach, hops]
    by_cases hex : ∃ c, Reached b (es (nopenfd rlim_cur)) c ∧ Fails S.chown a.ia c
    · -- AuFin: only copies were made
      simp only [if_pos (hfin.2 hex)]
      refine ⟨fun _ => Or.inl hex, ?_⟩
      intro _ pre op post heq hop
      exact absurd hop (copied_drops op (by rw [heq]; simp))
    · simp only [if_neg (mt hfin.1 hex)]
      calc (∀ pre op post, _ → Op.Drops op → ∀ path, Linked inode cwd a.ia path → Op.copied path ∈ pre)
          ↔ ∀ path, Linked inode cwd a.ia path → Op.copied path ∈ _ := drops_after copied_drops _
        _ ↔ ∀ path, Linked inode cwd a.ia path →
              ∃ c, Reached b (es (nopenfd rlim_cur)) c ∧ c.path = path ∧ touches a.ia c = true :=
            forall₂_congr fun path _ => mem_copied hex path
        _ ↔ _ := (or_iff_right hex).symm
  · have hnil : do_plink S nftw .flush br = [] := flush_nothing hdo
    refine ⟨?_, ?_⟩
    · intro _ a rlim_cur hcol hia hlim
      exact absurd ⟨a, rlim_cur, hcol, hia, hlim⟩ hdo
    · intro _ pre op post h
      rw [hnil] at h
      simp at h

/-- one writable branch "/b" with the pseudo-link "5.1"; every call succeeds -/
def onePlink : Sys :=
  { access := fun _ => true
    opendir := fun _ => some [[46], [46, 46], [53, 46, 49]]
    malloc := fun _ => true
    realloc := fun _ _ => true
    getrlimit := some 1024
    chown := allOk
    clean := true
    unlink := fun _ => true }

def oneBranch : List Brinfo := [⟨0, 1, [47, 98]⟩]

theorem onePlink_collect : collect onePlink 0 oneBranch ⟨[], []⟩ =
    some ⟨[child (child [47, 98] AUFS_WH_PLINKDIR) [53, 46, 49]], [5]⟩ := by decide +kernel

/-- the file "a" has the number 5, and the walk meets it before the plink directory -/
theorem flush_keeps_plinks_first :
    KeepsPlinks onePlink (own_nftw (smallMount [[46], [46, 46], [97], AUFS_WH_PLINKDIR]) [47, 109]) oneBranch
      (fun p => if p = child [47, 109] [97] then some ⟨1, 5, .other⟩ else none) [47, 109] := by
  refine (flush_keeps_plinks_iff onePlink .other _ _ oneBranch _ [47, 109] (au_nftw_walker _ _)).2 ?_
  intro a rlim_cur hcol _ hlim
  rw [onePlink_collect, Option.some.injEq] at hcol
  obtain rfl : 1024 = rlim_cur := Option.some.inj hlim
  rw [← hcol]
  right
  rintro path ⟨st, hst, -⟩
  have hpath : path = child [47, 109] [97] := by
    by_contra hne
    simp [hne] at hst
  have hcov := walked_covers .other allOk [5] (met (smallMount [[46], [46, 46], [97], AUFS_WH_PLINKDIR]) [47, 109] 1014)
  have hcall : ∃ c ∈ (walked .other (ftw_cpup allOk [5])
      (met (smallMount [[46], [46, 46], [97], AUFS_WH_PLINKDIR]) [47, 109] 1014)).2,
      c.path = child [47, 109] [97] ∧ touches [5] c = true := by decide +kernel
  obtain ⟨c, hc, hcp, ht⟩ := hcall
  exact ⟨c, (hcov.calls (by decide +kernel) c).1 hc, hcp.trans hpath.symm, ht⟩

/-- "/m" with a directory "d" that cannot be opened (EIO), and then the file "a" -/
def brokenMount : World :=
  let lstat : Bytes → Except Errno Stat := fun p =>
    if p = [47, 109] then .ok ⟨1, 2, .dir⟩
    else if p = child [47, 109] [100] then .ok ⟨1, 3, .dir⟩
    else if p = child [47, 109] [97] then .ok ⟨1, 5, .other⟩
    else .error .enoent
  { lstat := lstat
    stat := lstat
    junk := fun _ => ⟨0, 0, .other⟩
    readable := fun _ => true
    opendir := fun p => if p = [47, 109] then .ok [[46], [46, 46], [100], [97]] else .error .other }

/-- the walk ends at "d"; "a" is not copied up, and its pseudo-link is dropped -/
theorem flush_drops_unvisited :
    ¬ ∀ (S : Sys) (W : World) (br : List Brinfo) (cwd : Bytes),
      KeepsPlinks S (own_nftw W cwd) br (fun p => (W.lstat p).toOption) cwd := by
  intro h
  have hops : do_plink onePlink (own_nftw brokenMount [47, 109]) .flush oneBranch =
      [] ++ .clean :: [.unlink (child (child [47, 98] AUFS_WH_PLINKDIR) [53, 46, 49])] := by decide +kernel
  have hout : Outside [47, 109] (child [47, 109] [97]) := ⟨[[97]], by decide, rfl⟩
  have hcopied := h onePlink brokenMount oneBranch [47, 109] [] .clean _ hops trivial _ onePlink_collect
    (child [47, 109] [97]) ⟨⟨1, 5, .other⟩, by decide +kernel, by decide, hout, by decide⟩
  cases hcopied

end AufsUtil.Plink
