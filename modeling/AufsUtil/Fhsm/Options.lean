/-
The option loop of aufhsm and of aufhsmd: opt() of `fhsm/aufhsm.c` and `fhsm/aufhsmd.c`.

Both call getopt_long(3) in a loop that ends when -1 is returned, and at the latest after argc - 1 turns. Every turn is
one call and one case of a switch. The two differ in their tables and in the switch only (`Program`).

What the model keeps of C:
- getopt_long is that of `Lib.Getopt`; the options of a vector are those of its grammar;
- optflags is the word of bits that opt_set and au_opt_set make, dir the string that goes to
  realpath(3) behind the loop;
- -V, -h and '?' end the program.
What opt() does with dir behind the loop is left out.

- `opt_loop_fits`, `opt_loop_cut`: what the loop comes to when its turns suffice for the calls, and when they do not.
- `opt_takes_effect_iff`: every option takes effect, and argv[optind] is the first operand, exactly when the calls up to
  the first -V or -h, or up to the -1, are no more than argc - 1. A cluster of letters needs a call for each of them but
  is one element.
-/
import Mathlib.Tactic
import AufsUtil.Lib.Getopt

namespace AufsUtil.Fhsm.Options

open AufsUtil.CStr AufsUtil.Getopt

/-! ## The loop -/

structure OptState where
  optflags : ℕ
  dir : Option Bytes
deriving DecidableEq, Repr

/-- one case of the switch: on to the next turn, or exit(3) -/
inductive Turn where
  | next (st : OptState)
  | exit (code : ℕ)
deriving DecidableEq, Repr

structure Program where
  spec : Spec
  switch : Opt → OptState → Turn

def EINVAL : ℕ := 22

def opt_set (st : OptState) (bit : ℕ) : Turn := .next { st with optflags := st.optflags ||| 1 <<< bit }

/-- how the loop ends: exit(3), or behind it with `done`, and the scan -/
inductive End where
  | exit (code : ℕ)
  | behind (done : Bool) (st : OptState) (s : Scan)
deriving DecidableEq, Repr

/-- at most n turns -/
def opt_loop (p : Program) : ℕ → Scan → OptState → End
  | 0, s, st => .behind false st s
  | n + 1, s, st =>
    match getopt_long p.spec s with
    | (.stop, s) => .behind true st s
    | (.err, _) => .exit 0
    | (.opt o, s) =>
      match p.switch o st with
      | .exit code => .exit code
      | .next st => opt_loop p n s st

/-- opt() on a vector of args.length + 1 elements; env is AUFHSM_LIST_DIR -/
def opt (p : Program) (env : Option Bytes) (args : List Bytes) : End :=
  opt_loop p args.length (Scan.start args) ⟨0, env⟩

/-! ## The two programs -/

def OptFhsm_INODE : ℕ := 0
def OptFhsm_RECREATE : ℕ := 1
def OptFhsm_KILL : ℕ := 2
def OptFhsm_QUIET : ℕ := 3
def OptFhsm_VERBOSE : ℕ := 4

/-- "id:rkqvVh", and inode, dir, recreate, kill, quiet, verbose, version, help -/
def aufhsm : Program where
  spec :=
    { optstring := [105, 100, 58, 114, 107, 113, 118, 86, 104]
      longopts :=
        [([105, 110, 111, 100, 101], false, 105), ([100, 105, 114], true, 100),
          ([114, 101, 99, 114, 101, 97, 116, 101], false, 114), ([107, 105, 108, 108], false, 107),
          ([113, 117, 105, 101, 116], false, 113), ([118, 101, 114, 98, 111, 115, 101], false, 118),
          ([118, 101, 114, 115, 105, 111, 110], false, 86), ([104, 101, 108, 112], false, 104)] }
  switch o st :=
    if o.1 = 105 then opt_set st OptFhsm_INODE
    else if o.1 = 100 then .next { st with dir := o.2 }
    else if o.1 = 114 then opt_set st OptFhsm_RECREATE
    else if o.1 = 107 then opt_set st OptFhsm_KILL
    else if o.1 = 113 then opt_set st OptFhsm_QUIET
    else if o.1 = 118 then opt_set st OptFhsm_VERBOSE
    else if o.1 = 86 ∨ o.1 = 104 then .exit 0
    else .exit EINVAL

def OptFhsmd_NODAEMON : ℕ := 0
def OptFhsmd_VERBOSE : ℕ := 1

/-- "d:vDVh", and dir, verbose, no-daemon, version, help -/
def aufhsmd : Program where
  spec :=
    { optstring := [100, 58, 118, 68, 86, 104]
      longopts :=
        [([100, 105, 114], true, 100), ([118, 101, 114, 98, 111, 115, 101], false, 118),
          ([110, 111, 45, 100, 97, 101, 109, 111, 110], false, 68), ([118, 101, 114, 115, 105, 111, 110], false, 86),
          ([104, 101, 108, 112], false, 104)] }
  switch o st :=
    if o.1 = 100 then .next { st with dir := o.2 }
    else if o.1 = 118 then opt_set st OptFhsmd_VERBOSE
    else if o.1 = 68 then opt_set st OptFhsmd_NODAEMON
    else if o.1 = 86 ∨ o.1 = 104 then .exit 0
    else .exit EINVAL

/-! ## What the options of a vector ask for -/

/-- the options one after the other, to the first that ends the program -/
def effects (p : Program) : List Opt → OptState → Turn
  | [], st => .next st
  | o :: os, st =>
    match p.switch o st with
    | .exit code => .exit code
    | .next st => effects p os st

/-- -V and -h -/
def ends (o : Opt) : Bool := o.1 == 86 || o.1 == 104

/-- the calls that are needed: to the first option that ends the program, or to the -1 -/
def needed (os : List Opt) : ℕ := os.findIdx ends + 1

/-- opt() does what the options ask for: it ends the program, or -1 is returned and argv[optind] is the first operand -/
def TakesEffect (p : Program) (env : Option Bytes) (args : List Bytes) (os : List Opt) (ps : List Bytes) : Prop :=
  match effects p os ⟨0, env⟩ with
  | .exit code => opt p env args = .exit code
  | .next st => ∃ s, opt p env args = .behind true st s ∧ ∀ argv0, (argv0 :: s.argv)[s.optind]? = ps.head?

/-- only -V and -h end the program -/
def EndsAt (p : Program) (o : Opt) : Prop :=
  if ends o then ∀ st, p.switch o st = .exit 0 else ∀ st, ∃ st', p.switch o st = .next st'

theorem switch_known (p : Program) (hp : p = aufhsm ∨ p = aufhsmd) (o : Opt) (ho : o.1 ∈ p.spec.letters) :
    EndsAt p o := by
  obtain ⟨c, arg⟩ := o
  rcases hp with rfl | rfl
  · have hc : c = 105 ∨ c = 100 ∨ c = 114 ∨ c = 107 ∨ c = 113 ∨ c = 118 ∨ c = 86 ∨ c = 104 := by
      simp [Spec.letters, aufhsm] at ho
      tauto
    rcases hc with rfl | rfl | rfl | rfl | rfl | rfl | rfl | rfl
    iterate 6 exact fun st => ⟨_, rfl⟩
    iterate 2 exact fun st => rfl
  · have hc : c = 100 ∨ c = 118 ∨ c = 68 ∨ c = 86 ∨ c = 104 := by
      simp [Spec.letters, aufhsmd] at ho
      tauto
    rcases hc with rfl | rfl | rfl | rfl | rfl
    iterate 3 exact fun st => ⟨_, rfl⟩
    iterate 2 exact fun st => rfl

/-! ## The run of the loop -/

/-- with turns enough the loop does what the options ask for -/
theorem opt_loop_fits {p : Program} {s u : Scan} {os : List Opt} (h : Calls p.spec s os u)
    (hk : ∀ o ∈ os, EndsAt p o) (n : ℕ) (st : OptState) (hn : needed os ≤ n) :
    match effects p os st with
    | .exit code => opt_loop p n s st = .exit code
    | .next st' => opt_loop p n s st = .behind true st' u := by
  induction h generalizing n st with
  | stop h =>
    obtain ⟨n, rfl⟩ : ∃ m, n = m + 1 := ⟨n - 1, by unfold needed at hn; omega⟩
    simp [effects, opt_loop, h]
  | @opt s t u o os h _ ih =>
    obtain ⟨n, rfl⟩ : ∃ m, n = m + 1 := ⟨n - 1, by unfold needed at hn; omega⟩
    have ho := hk o List.mem_cons_self
    unfold EndsAt at ho
    rw [effects, opt_loop, h]
    cases he : ends o with
    | true =>
      rw [he, if_pos rfl] at ho
      simp [ho st]
    | false =>
      rw [he, if_neg Bool.false_ne_true] at ho
      obtain ⟨st', hst⟩ := ho st
      have hneed : needed os ≤ n := by
        unfold needed at hn ⊢
        rw [List.findIdx_cons, he] at hn
        simp only [cond_false] at hn
        omega
      have hrest := ih (fun x hx => hk x (List.mem_cons_of_mem o hx)) n st' hneed
      simp only [hst]
      exact hrest

/-- with fewer the loop is left without a -1, and without an exit -/
theorem opt_loop_cut {p : Program} {s u : Scan} {os : List Opt} (h : Calls p.spec s os u)
    (hk : ∀ o ∈ os, EndsAt p o) (n : ℕ) (st : OptState) (hn : n < needed os) :
    ∃ st' t, opt_loop p n s st = .behind false st' t := by
  induction h generalizing n st with
  | @stop s t h =>
    cases n with
    | zero => exact ⟨st, s, rfl⟩
    | succ n => exact absurd hn (by simp [needed])
  | @opt s t u o os h _ ih =>
    cases n with
    | zero => exact ⟨st, s, rfl⟩
    | succ n =>
      have ho := hk o List.mem_cons_self
      unfold EndsAt at ho
      unfold needed at hn
      rw [List.findIdx_cons] at hn
      cases he : ends o with
      | true =>
        rw [he] at hn
        simp at hn
      | false =>
        rw [he, if_neg Bool.false_ne_true] at ho
        obtain ⟨st', hst⟩ := ho st
        rw [he] at hn
        simp only [cond_false, Nat.add_lt_add_iff_right] at hn
        obtain ⟨st'', t', hrest⟩ := ih (fun x hx => hk x (List.mem_cons_of_mem o hx)) n st' (by unfold needed; omega)
        exact ⟨st'', t', by rw [opt_loop, h]; simp only [hst]; exact hrest⟩

/-- for a program whose switch ends it at -V and -h only -/
theorem takes_effect_iff {p : Program} {args : List Bytes} {os : List Opt} {ps : List Bytes}
    (h : Parses p.spec args os ps) (hk : ∀ o ∈ os, EndsAt p o) (env : Option Bytes) :
    TakesEffect p env args os ps ↔ needed os ≤ args.length := by
  obtain ⟨u, hcalls, hsk, hrest⟩ := parses_calls h (Scan.start args) rfl rfl
  constructor
  · intro heff
    by_contra hn
    obtain ⟨st, t, hcut⟩ := opt_loop_cut hcalls hk args.length ⟨0, env⟩ (by omega)
    unfold TakesEffect opt at heff
    rw [hcut] at heff
    split at heff
    · cases heff
    · obtain ⟨s, hs, -⟩ := heff
      cases hs
  · intro hn
    have hfits := opt_loop_fits hcalls hk args.length ⟨0, env⟩ hn
    unfold TakesEffect opt
    cases heff : effects p os ⟨0, env⟩ with
    | exit code =>
      rw [heff] at hfits
      exact hfits
    | next st =>
      rw [heff] at hfits
      refine ⟨u, hfits, fun argv0 => ?_⟩
      rw [argv_optind u argv0 hrest, hsk]
      rfl

/-- **When every option takes effect.** For both programs and every vector whose options are known: exactly when the
calls that its options need are no more than the turns of the loop. -/
theorem opt_takes_effect_iff (env : Option Bytes) (args : List Bytes) (os : List Opt) (ps : List Bytes) :
    (Parses aufhsm.spec args os ps → (TakesEffect aufhsm env args os ps ↔ os.findIdx ends + 1 ≤ args.length)) ∧
      (Parses aufhsmd.spec args os ps → (TakesEffect aufhsmd env args os ps ↔ os.findIdx ends + 1 ≤ args.length)) := by
  constructor
  · intro h
    exact takes_effect_iff h (fun o ho => switch_known aufhsm (Or.inl rfl) o (parses_letters h o ho)) env
  · intro h
    exact takes_effect_iff h (fun o ho => switch_known aufhsmd (Or.inr rfl) o (parses_letters h o ho)) env

/-- "aufhsm -i -v /m": three calls, and three turns -/
theorem opt_takes_effect_iff_split :
    TakesEffect aufhsm none [[45, 105], [45, 118], [47, 109]] (flagOpts [105] ++ flagOpts [118]) [[47, 109]] := by
  have hflags : ∀ c ∈ [105, 118], Flags aufhsm.spec [c] := by
    intro c hc d hd
    obtain rfl := List.mem_singleton.1 hd
    simp only [List.mem_cons, List.not_mem_nil, or_false] at hc
    rcases hc with rfl | rfl <;> rfl
  have hparse : Parses aufhsm.spec [[45, 105], [45, 118], [47, 109]] (flagOpts [105] ++ flagOpts [118]) [[47, 109]] :=
    Parses.cluster (by decide) (hflags 105 (by decide)) (Parses.cluster (by decide) (hflags 118 (by decide))
      (Parses.operand rfl Parses.nil))
  exact ((opt_takes_effect_iff none _ _ _).1 hparse).2 (by decide)

/-- "aufhsm -irqv /m": -q and -v are lost, although both letters are known -/
theorem opt_loses_letters :
    Parses aufhsm.spec [[45, 105, 114, 113, 118], [47, 109]] (flagOpts [105, 114, 113, 118]) [[47, 109]] ∧
      ¬ TakesEffect aufhsm none [[45, 105, 114, 113, 118], [47, 109]] (flagOpts [105, 114, 113, 118]) [[47, 109]] ∧
      opt aufhsm none [[45, 105, 114, 113, 118], [47, 109]] =
        .behind false ⟨1 <<< OptFhsm_INODE ||| 1 <<< OptFhsm_RECREATE, none⟩
          ⟨[113, 118], [[45, 105, 114, 113, 118]], [], [[47, 109]]⟩ := by
  have hopt : opt aufhsm none [[45, 105, 114, 113, 118], [47, 109]] =
      .behind false ⟨1 <<< OptFhsm_INODE ||| 1 <<< OptFhsm_RECREATE, none⟩
        ⟨[113, 118], [[45, 105, 114, 113, 118]], [], [[47, 109]]⟩ := by decide
  refine ⟨?_, ?_, hopt⟩
  · have hflags : Flags aufhsm.spec [105, 114, 113, 118] := by
      intro c hc
      simp only [List.mem_cons, List.not_mem_nil, or_false] at hc
      rcases hc with rfl | rfl | rfl | rfl <;> rfl
    exact Parses.cluster (by decide) hflags (Parses.operand rfl Parses.nil)
  · intro heff
    have hnext : effects aufhsm (flagOpts [105, 114, 113, 118]) ⟨0, none⟩ = .next ⟨27, none⟩ := by decide
    unfold TakesEffect at heff
    rw [hnext, hopt] at heff
    obtain ⟨s, hs, -⟩ := heff
    cases hs

end AufsUtil.Fhsm.Options
