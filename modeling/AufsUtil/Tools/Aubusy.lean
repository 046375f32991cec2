/-
aubusy (`aubusy`): which processes keep a branch busy. lsof(8) lists the open files of the mount point, a program for
awk(1) makes a line of each process and its inode numbers, and for each line auibusy asks for the numbers.

- `awk_lsof`: the lines, for every list of processes. A file of another device hides the files of the process behind it.
- `asked_lines`: what auibusy prints for a line, however xargs(1) cuts its arguments: all that is busy in front of the
  first number for which the ioctl(2) fails.
- `verbose_prints`: the whole output with -v.
- `plain_names_iff`: without -v the script is ended by its `set -e` at the first process that is not busy. It names all
  processes that -v names exactly if none of these comes behind such a one.

What the model keeps: the awk program with its state; the lines that read takes, from the text that awk prints; that
xargs stops when a command ends with 255, as auibusy does; the loop over the lines, which ends with a pipeline that
fails. The index of the branch, the answers of ioctl(2) for an inode number and the cutting of xargs are inputs. lsof
prints a p, an R and, for each file, an f, a D and an i line, the last two if it knows them.
-/
import Mathlib.Tactic
import Mathlib.Data.List.Destutter
import AufsUtil.Lib.Shell
import AufsUtil.Tools.Auibusy

namespace AufsUtil.Aubusy

open AufsUtil.CStr AufsUtil.Shell AufsUtil.Strtol AufsUtil.Auibusy
open AufsUtil.Fhsm.Lister (decimal decimal_isdigit decimal_injective decimal_ne_nil)

/-! ## The script -/

/-- the variables that are set with -v of awk(1) -/
structure Vars where
  g_ppid : Bytes
  g_dev : Bytes
  root : Bytes

/-- the variables of the program, and the lines it has printed -/
structure Awk where
  pid : Bytes
  do_print : Bool
  inum : Bytes
  printed : List Bytes
deriving DecidableEq, Repr

def pr (s : Awk) : Awk :=
  if s.inum = [] then s else { s with inum := [], printed := s.printed ++ [s.pid ++ 32 :: s.inum] }

/-- the rules, for one line; all comparisons are of strings, since substr() returns one -/
def rule (v : Vars) (s : Awk) : Bytes → Awk
  | [] => s
  | c :: rest =>
    if c = 112 then { pr s with pid := rest, do_print := true }
    else if c = 82 then (if rest = v.g_ppid then { s with do_print := false } else s)
    else if c = 68 then (if rest.drop 2 ≠ v.g_dev then { s with do_print := false } else s)
    else if c = 105 ∧ s.do_print then (if rest ≠ v.root then { s with inum := s.inum ++ 32 :: rest } else s)
    else s

def awk (v : Vars) (lines : List Bytes) : List Bytes := (pr (lines.foldl (rule v) ⟨[], false, [], []⟩)).printed

/-- what the script meets -/
structure Sys where
  mntpnt : Bytes
  /-- can auibusy open the mount point -/
  opendir : Bool
  /-- the struct of auibusy, which is not initialised -/
  ibusy : aufs_ibusy
  /-- the index of the branch -/
  bindex : ℕ
  bindex_lt : bindex < 2 ^ 64
  /-- the answer of the ioctl(2) for a branch and an inode number: the number on the branch, 0 if it is not busy -/
  kernel : ℤ → ℕ → Option ℕ
  /-- the runs of a command that xargs(1) makes for some arguments: each gets at least one, and they keep their order -/
  cut : List Bytes → List (List Bytes)
  cut_flatten : ∀ args, (cut args).flatten = args
  cut_ne_nil : ∀ args, [] ∉ cut args

/-- the answers to the ioctl(2)s of a run that asks for these numbers -/
def Sys.answers (S : Sys) (bindex : ℤ) (inos : List ℕ) (n : ℕ) : Answer :=
  match inos[n]? with
  | none => ⟨0, ⟨0, 0, bindex⟩⟩
  | some ino =>
    match S.kernel bindex ino with
    | none => ⟨-1, ⟨ino, 0, bindex⟩⟩
    | some h_ino => ⟨0, ⟨ino, h_ino, bindex⟩⟩

/-- %d -/
def signed (z : ℤ) : Bytes := if z < 0 then 45 :: decimal z.natAbs else decimal z.natAbs

/-- "i%llu\tb%d\thi%llu\n", without the newline -/
def busy_line (ino : ℕ) (bindex : ℤ) (h_ino : ℕ) : Bytes :=
  (105 :: decimal ino) ++ (9 :: 98 :: signed bindex) ++ (9 :: 104 :: 105 :: decimal h_ino)

/-- the lines among what auibusy did -/
def printed (done : List Event) : List Bytes :=
  done.filterMap fun e => match e with
    | .ioctl _ => none
    | .printf ino bindex h_ino => some (busy_line ino bindex h_ino)

/-- a run of auibusy with these numbers: what it returns and prints -/
def auibusy (S : Sys) (inums : List Bytes) : ℤ × List Bytes :=
  match Auibusy.main 0 (S.mntpnt :: decimal S.bindex :: inums) [] S.opendir S.ibusy
    (S.answers (toInt16 S.bindex) (asked_for inums)) with
  | none => (0, [])
  | some r => (r.1, printed r.2.done)

/-- xargs(1): one command after the other, until one ends with 255 -/
def xargs (run : List Bytes → ℤ × List Bytes) : List (List Bytes) → List Bytes
  | [] => []
  | args :: rest => (run args).2 ++ if (run args).1 % 256 = 255 then [] else xargs run rest

/-- `echo "$ino" | xargs -r auibusy "$mntpnt" $bindex` -/
def ask (S : Sys) (ino : Bytes) : List Bytes := xargs (auibusy S) (S.cut (words (ino ++ [10])))

/-- the loop with -v: sed(1) never fails -/
def verbose_loop (S : Sys) (rs : List (Bytes × Bytes)) : List Bytes :=
  rs.flatMap fun r => (ask S r.2).map fun line => r.1 ++ 9 :: line

/-- the loop without: when there is nothing to count, the pipeline fails, and `set -e` ends the loop -/
def plain_loop (S : Sys) : List (Bytes × Bytes) → List Bytes
  | [] => []
  | (pid, ino) :: rs => if ask S ino = [] then [] else pid :: plain_loop S rs

def uniq (ls : List Bytes) : List Bytes := ls.destutter (· ≠ ·)

/-- the lines that the script prints -/
def aubusy (S : Sys) (verbose : Bool) (v : Vars) (lsof : List Bytes) : List Bytes :=
  let rs := reads (awk v lsof).length (text (awk v lsof))
  uniq (if verbose then verbose_loop S rs else plain_loop S rs)

/-! ## Processes -/

structure File where
  fd : Bytes
  dev : Option Bytes
  ino : Option ℕ
  ino_lt : ∀ i ∈ ino, i < 2 ^ 64

structure Process where
  pid : ℕ
  ppid : ℕ
  files : List File

def File.lines (f : File) : List Bytes :=
  (102 :: f.fd) :: ((f.dev.map fun d => 68 :: 48 :: 120 :: d).toList ++ (f.ino.map fun i => 105 :: decimal i).toList)

def Process.lines (p : Process) : List Bytes :=
  (112 :: decimal p.pid) :: (82 :: decimal p.ppid) :: p.files.flatMap File.lines

/-- `lsof -FDiR` -/
def lsof (ps : List Process) : List Bytes := ps.flatMap Process.lines

/-- the numbers that the script asks for: not those of its own children, nothing from a file of another device on, and
not the root -/
def Process.inodes (g_ppid : ℕ) (g_dev : Bytes) (p : Process) : List ℕ :=
  if p.ppid = g_ppid then []
  else ((p.files.takeWhile fun f => f.dev.all (· == g_dev)).filterMap File.ino).filter (· ≠ AUFS_ROOT_INO)

/-- the variables as the script sets them -/
def vars (g_ppid : ℕ) (g_dev : Bytes) : Vars := ⟨decimal g_ppid, g_dev, decimal AUFS_ROOT_INO⟩

/-! ## The awk program -/

section Awk

variable (g_ppid : ℕ) (g_dev : Bytes)

/-- the files of the device that are listed before one of another device -/
def near (fs : List File) : List File := fs.takeWhile fun f => f.dev.all (· == g_dev)

/-- the numbers of some files, without the root -/
def numbers (fs : List File) : List ℕ := ((near g_dev fs).filterMap File.ino).filter (· ≠ AUFS_ROOT_INO)

theorem rule_fd (s : Awk) (fd : Bytes) : rule (vars g_ppid g_dev) s (102 :: fd) = s := rfl

theorem rule_pid (s : Awk) (n : ℕ) : rule (vars g_ppid g_dev) s (112 :: decimal n) =
    { pr s with pid := decimal n, do_print := true } := rfl

theorem rule_ppid (s : Awk) (n : ℕ) : rule (vars g_ppid g_dev) s (82 :: decimal n) =
    { s with do_print := s.do_print && n != g_ppid } := by
  obtain ⟨pid, do_print, inum, printed⟩ := s
  by_cases hn : n = g_ppid
  · simp [rule, vars, hn]
  · have hne : decimal n ≠ decimal g_ppid := fun h => hn (decimal_injective h)
    simp [rule, vars, hn, hne]

theorem rule_dev (s : Awk) (d : Bytes) :
    rule (vars g_ppid g_dev) s (68 :: 48 :: 120 :: d) = { s with do_print := s.do_print && d == g_dev } := by
  obtain ⟨pid, do_print, inum, printed⟩ := s
  by_cases hd : d = g_dev <;> simp [rule, vars, hd]

theorem rule_ino (s : Awk) (i : ℕ) : rule (vars g_ppid g_dev) s (105 :: decimal i) =
    { s with inum := s.inum ++ if s.do_print ∧ i ≠ AUFS_ROOT_INO then 32 :: decimal i else [] } := by
  obtain ⟨pid, do_print, inum, printed⟩ := s
  by_cases hi : i = AUFS_ROOT_INO
  · simp [rule, vars, hi]
  · have hne : decimal i ≠ decimal AUFS_ROOT_INO := fun h => hi (decimal_injective h)
    cases do_print <;> simp [rule, vars, hi, hne]

/-- a file -/
theorem fold_file (s : Awk) (f : File) : f.lines.foldl (rule (vars g_ppid g_dev)) s =
    { s with
      do_print := s.do_print && f.dev.all (· == g_dev)
      inum := s.inum ++ (if s.do_print && f.dev.all (· == g_dev) then
        spaced ((f.ino.toList.filter (· ≠ AUFS_ROOT_INO)).map decimal) else []) } := by
  obtain ⟨fd, dev, ino, hlt⟩ := f
  have hino : ∀ t : Awk, ((ino.map fun i => 105 :: decimal i).toList).foldl (rule (vars g_ppid g_dev)) t =
      { t with inum := t.inum ++ (if t.do_print then
        spaced ((ino.toList.filter (· ≠ AUFS_ROOT_INO)).map decimal) else []) } := by
    intro t
    cases ino with
    | none => simp
    | some i =>
      simp only [Option.map_some, Option.toList_some, List.foldl_cons, List.foldl_nil, rule_ino]
      by_cases hi : i = AUFS_ROOT_INO <;> cases t.do_print <;> simp [hi]
  rw [File.lines, List.foldl_cons, rule_fd, List.foldl_append]
  cases dev with
  | none => simp [hino]
  | some d => simp [hino, rule_dev]

/-- the files of a process -/
theorem fold_files (s : Awk) (fs : List File) : (fs.flatMap File.lines).foldl (rule (vars g_ppid g_dev)) s =
    { s with
      do_print := s.do_print && fs.all fun f => f.dev.all (· == g_dev)
      inum := s.inum ++ (if s.do_print then spaced ((numbers g_dev fs).map decimal) else []) } := by
  induction fs generalizing s with
  | nil => simp [numbers, near]
  | cons f fs ih =>
    rw [List.flatMap_cons, List.foldl_append, fold_file, ih]
    cases hp : s.do_print with
    | false => simp
    | true =>
      cases hf : f.dev.all (· == g_dev) with
      | false => simp [numbers, near, hf]
      | true =>
        cases hi : f.ino with
        | none => simp [numbers, near, hf, hi]
        | some i => by_cases h2 : i = AUFS_ROOT_INO <;> simp [numbers, near, hf, hi, h2]

theorem pr_inum (s : Awk) : (pr s).inum = [] := by
  rw [pr]
  split_ifs with h
  · exact h
  · rfl

/-- a process: its numbers, and those of the one before are printed -/
theorem fold_process (s : Awk) (p : Process) : ∃ b, p.lines.foldl (rule (vars g_ppid g_dev)) s =
    ⟨decimal p.pid, b, spaced ((p.inodes g_ppid g_dev).map decimal), (pr s).printed⟩ := by
  rw [Process.lines, List.foldl_cons, List.foldl_cons, rule_pid, rule_ppid, fold_files, pr_inum]
  refine ⟨_, congrArg (Awk.mk _ _ · _) ?_⟩
  by_cases hpp : p.ppid = g_ppid <;> simp [Process.inodes, hpp, numbers, near]

/-- the processes that have a line -/
def listed (ps : List Process) : List Process := ps.filter fun p => p.inodes g_ppid g_dev ≠ []

/-- the line of a process -/
def Process.line (p : Process) : Bytes := decimal p.pid ++ 32 :: spaced ((p.inodes g_ppid g_dev).map decimal)

/-- **The lines of awk.** -/
theorem awk_lsof (ps : List Process) :
    awk (vars g_ppid g_dev) (lsof ps) = (listed g_ppid g_dev ps).map (Process.line g_ppid g_dev) := by
  suffices h : ∀ s : Awk, (pr ((lsof ps).foldl (rule (vars g_ppid g_dev)) s)).printed =
      (pr s).printed ++ (listed g_ppid g_dev ps).map (Process.line g_ppid g_dev) by
    rw [awk, h]
    rfl
  induction ps with
  | nil =>
    intro s
    rw [listed, List.filter_nil, List.map_nil, List.append_nil]
    rfl
  | cons p ps ih =>
    intro s
    obtain ⟨b, hb⟩ := fold_process g_ppid g_dev s p
    rw [lsof, List.flatMap_cons, List.foldl_append, hb, ← lsof, ih, listed, listed, pr]
    dsimp only
    by_cases hnil : p.inodes g_ppid g_dev = []
    · simp [hnil]
    · obtain ⟨i, is, hi⟩ := List.exists_cons_of_ne_nil hnil
      have hsp : spaced ((p.inodes g_ppid g_dev).map decimal) ≠ [] := by simp [hi]
      rw [if_neg hsp, List.filter_cons_of_pos (by simpa using hnil), List.map_cons, List.append_assoc]
      rfl

end Awk

/-! ## auibusy for a line -/

/-- what is busy among some numbers, with the numbers on the branch, up to the first for which the ioctl(2) fails -/
def found (k : ℕ → Option ℕ) : List ℕ → List (ℕ × ℕ)
  | [] => []
  | i :: is =>
    match k i with
    | none => []
    | some h => (if h = 0 then [] else [(i, h)]) ++ found k is

/-- no ioctl(2) fails -/
def fine (k : ℕ → Option ℕ) (is : List ℕ) : Bool := is.all fun i => (k i).isSome

theorem found_append (k : ℕ → Option ℕ) (is js : List ℕ) :
    found k (is ++ js) = found k is ++ if fine k is then found k js else [] := by
  induction is with
  | nil => simp [found, fine]
  | cons i is ih =>
    rw [List.cons_append, found, found]
    cases hi : k i with
    | none => simp [fine, hi]
    | some h => simp [fine, hi, ih]

section Ask

variable (S : Sys)

/-- the ioctl(2)s for the branch -/
def Sys.busy : ℕ → Option ℕ := S.kernel (toInt16 S.bindex)

/-- the line for a number -/
def Sys.show (e : ℕ × ℕ) : Bytes := busy_line e.1 (toInt16 S.bindex) e.2

/-- numbers as lsof(8) prints them -/
def Numbers (is : List ℕ) : Prop := ∀ i ∈ is, i < 2 ^ 64 ∧ i ≠ AUFS_ROOT_INO

theorem asked_numbers {is : List ℕ} (h : Numbers is) : asked_for (is.map decimal) = is := by
  induction is with
  | nil => rfl
  | cons i is ih =>
    obtain ⟨hi, h2⟩ := h i List.mem_cons_self
    rw [List.map_cons, asked_for_cons (strtoul_own hi), if_neg h2, List.singleton_append,
      ih fun j hj => h j (List.mem_cons_of_mem i hj)]

theorem do_ibusy_number {answers : ℕ → Answer} {st : St} {a : Answer} (ha : answers st.asked = a) {i : ℕ}
    (hi : i < 2 ^ 64) (h2 : i ≠ AUFS_ROOT_INO) : do_ibusy answers (decimal i) st =
      (a.err, ⟨a.ibusy, st.asked + 1, st.done ++ .ioctl { st.ibusy with ino := i } ::
        if a.err = 0 ∧ a.ibusy.h_ino ≠ 0 then [.printf a.ibusy.ino a.ibusy.bindex a.ibusy.h_ino] else []⟩) := by
  rw [do_ibusy, strtoul_own hi, ← ha]
  exact if_neg h2

/-- the loop over the arguments, from some number on -/
theorem args_loop_found {is : List ℕ} (h : Numbers is) (pre : List ℕ) (err : ℤ) (st : St)
    (hasked : st.asked = pre.length) (hindex : st.ibusy.bindex = toInt16 S.bindex) (herr : is ≠ [] ∨ err = 0) :
    let r := args_loop (S.answers (toInt16 S.bindex) (pre ++ is)) (is.map decimal) err st
    r.1 = (if fine S.busy is then 0 else -1) ∧
      printed r.2.done = printed st.done ++ (found S.busy is).map S.show := by
  induction is generalizing pre err st with
  | nil => simpa [args_loop, fine, found] using herr
  | cons i is ih =>
    obtain ⟨hi, h2⟩ := h i List.mem_cons_self
    -- the ioctl(2) for this number is the next one
    have hget : (pre ++ i :: is)[st.asked]? = some i := by rw [hasked]; simp
    have hans : S.answers (toInt16 S.bindex) (pre ++ i :: is) st.asked =
        match S.busy i with
        | none => ⟨-1, ⟨i, 0, toInt16 S.bindex⟩⟩
        | some h_ino => ⟨0, ⟨i, h_ino, toInt16 S.bindex⟩⟩ := by rw [Sys.answers, hget]; rfl
    rw [List.map_cons, args_loop, found]
    cases hk : S.busy i with
    | none =>
      rw [hk] at hans
      rw [do_ibusy_number hans hi h2]
      simp [fine, hk, printed]
    | some h_ino =>
      rw [hk] at hans
      rw [do_ibusy_number hans hi h2, if_neg (not_not.2 rfl)]
      have hrest := ih (fun j hj => h j (List.mem_cons_of_mem i hj)) (pre ++ [i]) 0
        ⟨⟨i, h_ino, toInt16 S.bindex⟩, st.asked + 1, st.done ++ .ioctl { st.ibusy with ino := i } ::
          if (0 : ℤ) = 0 ∧ h_ino ≠ 0 then [.printf i (toInt16 S.bindex) h_ino] else []⟩
        (by simp [hasked]) rfl (Or.inr rfl)
      rw [List.append_assoc, List.singleton_append] at hrest
      refine ⟨hrest.1.trans (by simp [fine, hk]), hrest.2.trans ?_⟩
      by_cases h0 : h_ino = 0 <;> simp [printed, h0, Sys.show]

/-- one run -/
theorem auibusy_found {is : List ℕ} (h : Numbers is) (hne : is ≠ []) (ho : S.opendir = true) :
    auibusy S (is.map decimal) = (if fine S.busy is then 0 else -1, (found S.busy is).map S.show) := by
  have hloop := args_loop_found S h [] (-1) ⟨{ S.ibusy with bindex := toInt16 S.bindex }, 0, []⟩ rfl rfl (Or.inl hne)
  rw [auibusy, Auibusy.main, ho, strtoul_own S.bindex_lt, asked_numbers h]
  simp only [Bool.not_true, Bool.false_eq_true, if_false, List.map_eq_nil_iff, hne]
  exact Prod.ext hloop.1 hloop.2

/-- what auibusy finds busy among some numbers -/
def Sys.found (is : List ℕ) : List (ℕ × ℕ) := if S.opendir then Aubusy.found S.busy is else []

/-- whatever arguments go into which run, since a run that fails is the last -/
theorem xargs_found {bs : List (List Bytes)} {is : List ℕ} (h : Numbers is) (hbs : bs.flatten = is.map decimal)
    (hne : [] ∉ bs) : xargs (auibusy S) bs = (S.found is).map S.show := by
  induction bs generalizing is with
  | nil =>
    obtain rfl := List.map_eq_nil_iff.1 hbs.symm
    cases ho : S.opendir <;> simp [xargs, Sys.found, Aubusy.found, ho]
  | cons b bs ih =>
    rw [List.flatten_cons] at hbs
    obtain ⟨is, js, rfl, rfl, hjs⟩ := List.map_eq_append_iff.1 hbs.symm
    have his : is ≠ [] := fun hnil => hne (by simp [hnil])
    rw [xargs]
    cases ho : S.opendir with
    | false =>
      have hfail : auibusy S (is.map decimal) = (-1, []) := by simp [auibusy, Auibusy.main, ho, printed]
      simp [hfail, Sys.found, ho]
    | true =>
      rw [auibusy_found S (fun i hi => h i (List.mem_append_left js hi)) his ho,
        ih (fun i hi => h i (List.mem_append_right is hi)) hjs.symm fun hnil => hne (List.mem_cons_of_mem _ hnil)]
      cases hf : fine S.busy is <;> simp [Sys.found, ho, found_append, hf]

theorem word_decimal (n : ℕ) : Word (decimal n) where
  ne_nil := decimal_ne_nil n
  blank c hc := by
    by_contra hb
    have hd := decimal_isdigit n c hc
    rw [Bool.not_eq_false, blank, Bool.or_eq_true, Bool.or_eq_true, beq_iff_eq, beq_iff_eq, beq_iff_eq] at hb
    obtain (rfl | rfl) | rfl := hb <;> exact absurd hd (by decide)
  backslash h92 := absurd (decimal_isdigit n 92 h92) (by decide)

/-- **auibusy for a line.** -/
theorem asked_lines {is : List ℕ} (h : Numbers is) :
    ask S (unspaced (is.map decimal)) = (S.found is).map S.show := by
  have hwords : ∀ w ∈ is.map decimal, Solid w := by
    intro w hw
    obtain ⟨n, -, rfl⟩ := List.mem_map.1 hw
    exact (word_decimal n).toSolid
  rw [ask, words_unspaced hwords]
  exact xargs_found S h (S.cut_flatten _) (S.cut_ne_nil _)

end Ask

/-! ## The whole script -/

section Script

variable (S : Sys) (g_ppid : ℕ) (g_dev : Bytes)

theorem numbers_inodes (p : Process) : Numbers (p.inodes g_ppid g_dev) := by
  intro i hi
  rw [Process.inodes] at hi
  split_ifs at hi with hpp
  · cases hi
  · obtain ⟨hi, h2⟩ := List.mem_filter.1 hi
    obtain ⟨f, hf, hfi⟩ := List.mem_filterMap.1 hi
    exact ⟨f.ino_lt i hfi, by simpa using h2⟩

/-- what is read of the output of awk -/
theorem reads_awk (ps : List Process) :
    reads (awk (vars g_ppid g_dev) (lsof ps)).length (text (awk (vars g_ppid g_dev) (lsof ps))) =
      (listed g_ppid g_dev ps).map fun p => (decimal p.pid, unspaced ((p.inodes g_ppid g_dev).map decimal)) := by
  have hwords : ∀ is : List ℕ, ∀ w ∈ is.map decimal, Word w := by
    intro is w hw
    obtain ⟨n, -, rfl⟩ := List.mem_map.1 hw
    exact word_decimal n
  rw [awk_lsof]
  rw [reads_lines ?_ _ le_rfl, List.map_map]
  · refine List.map_congr_left fun p _ => ?_
    rw [Function.comp_apply, Process.line, two_fields_spaced (word_decimal _) (hwords _)]
  · intro l hl
    obtain ⟨p, -, rfl⟩ := List.mem_map.1 hl
    exact literal_append (word_decimal _).literal (literal_spaced (hwords _))

/-- what a process keeps busy on the branch, as far as auibusy can tell -/
def Process.found (p : Process) : List (ℕ × ℕ) := S.found (p.inodes g_ppid g_dev)

theorem asked_process (p : Process) : ask S (unspaced ((p.inodes g_ppid g_dev).map decimal)) =
    (p.found S g_ppid g_dev).map S.show := asked_lines S (numbers_inodes g_ppid g_dev p)

/-- a process without numbers has no line, and nothing is found for it -/
theorem listed_of_found {p : Process} (h : p.found S g_ppid g_dev ≠ []) : p.inodes g_ppid g_dev ≠ [] := by
  intro hnil
  rw [Process.found, Sys.found, hnil, Aubusy.found, ite_self] at h
  exact h rfl

/-- **With -v** the script prints a line for every number that is busy. -/
theorem verbose_prints (ps : List Process) : aubusy S true (vars g_ppid g_dev) (lsof ps) =
    uniq (ps.flatMap fun p => (p.found S g_ppid g_dev).map fun e => decimal p.pid ++ 9 :: S.show e) := by
  rw [aubusy, reads_awk]
  refine congrArg uniq ?_
  rw [if_pos rfl, verbose_loop, List.flatMap_map, listed]
  induction ps with
  | nil => rfl
  | cons p ps ih =>
    rw [List.flatMap_cons, ← ih]
    by_cases hnil : p.inodes g_ppid g_dev = []
    · have hnone : p.found S g_ppid g_dev = [] := by
        by_contra h
        exact listed_of_found S g_ppid g_dev h hnil
      simp [hnil, hnone]
    · rw [List.filter_cons_of_pos (by simpa using hnil), List.flatMap_cons, asked_process, List.map_map]
      rfl

/-- a process keeps the branch busy -/
def Process.keeps (p : Process) : Bool := p.found S g_ppid g_dev ≠ []

/-- **Without -v** the script names the processes in front of the first that is not busy. -/
theorem plain_prints (ps : List Process) : aubusy S false (vars g_ppid g_dev) (lsof ps) =
    uniq (((listed g_ppid g_dev ps).takeWhile fun p => p.keeps S g_ppid g_dev).map fun p => decimal p.pid) := by
  rw [aubusy, reads_awk]
  refine congrArg uniq ?_
  rw [if_neg Bool.false_ne_true]
  induction listed g_ppid g_dev ps with
  | nil => rfl
  | cons p ps ih =>
    rw [List.map_cons, plain_loop, asked_process, List.takeWhile_cons, ih]
    by_cases h : p.found S g_ppid g_dev = [] <;> simp [Process.keeps, h]

/-- what stands before the first element of another kind is all of a kind exactly if none comes behind that one -/
theorem takeWhile_all_iff {α : Type} {l : List α} (hl : l.Nodup) (b : α → Bool) :
    (∀ x ∈ l, b x → x ∈ l.takeWhile b) ↔ l.Pairwise fun x y => b y → b x := by
  induction l with
  | nil => simp
  | cons x l ih =>
    rw [List.nodup_cons] at hl
    rw [List.pairwise_cons]
    cases hx : b x with
    | true =>
      rw [List.takeWhile_cons_of_pos hx, ← ih hl.2]
      constructor
      · refine fun h => ⟨fun _ _ _ => rfl, fun y hy hby => ?_⟩
        rcases List.mem_cons.1 (h y (List.mem_cons_of_mem x hy) hby) with rfl | hin
        · exact absurd hy hl.1
        · exact hin
      · rintro ⟨-, h⟩ y hy hby
        rcases List.mem_cons.1 hy with rfl | hy
        · exact List.mem_cons_self
        · exact List.mem_cons_of_mem x (h y hy hby)
    | false =>
      rw [List.takeWhile_cons_of_neg (by simp [hx])]
      constructor
      · intro h
        have hnone : ∀ y ∈ l, b y = false := by
          intro y hy
          by_contra hby
          exact absurd (h y (List.mem_cons_of_mem x hy) (by simpa using hby)) List.not_mem_nil
        refine ⟨fun y hy hby => absurd hby (by simp [hnone y hy]), List.pairwise_of_forall_mem_list ?_⟩
        intro y _ z hz hbz
        exact absurd hbz (by simp [hnone z hz])
      · rintro ⟨h, -⟩ y hy hby
        rcases List.mem_cons.1 hy with rfl | hy
        · exact absurd hby (by simp [hx])
        · exact absurd (h y hy hby) Bool.false_ne_true

/-- a list of distinct lines is left as it is -/
theorem uniq_nodup {ls : List Bytes} (h : ls.Nodup) : uniq ls = ls :=
  List.destutter_of_isChain _ _ (List.Pairwise.isChain h)

/-- **Without -v all are named** exactly if no process that keeps the branch busy comes behind one that does not, though
it has files to ask for. -/
theorem plain_names_iff {ps : List Process} (hpids : (ps.map Process.pid).Nodup) :
    (∀ p ∈ ps, p.keeps S g_ppid g_dev → decimal p.pid ∈ aubusy S false (vars g_ppid g_dev) (lsof ps)) ↔
      (listed g_ppid g_dev ps).Pairwise fun p q => q.keeps S g_ppid g_dev → p.keeps S g_ppid g_dev := by
  have hsub : (listed g_ppid g_dev ps).Sublist ps := List.filter_sublist
  have hnodup : (listed g_ppid g_dev ps).Nodup := (List.Nodup.of_map _ hpids).sublist hsub
  have hnames :
      (((listed g_ppid g_dev ps).takeWhile fun p => p.keeps S g_ppid g_dev).map fun p => decimal p.pid).Nodup := by
    have hpid :
        ((((listed g_ppid g_dev ps).takeWhile fun p => p.keeps S g_ppid g_dev).map Process.pid).map decimal).Nodup :=
      (hpids.sublist (((List.takeWhile_sublist _).trans hsub).map _)).map fun _ _ => decimal_injective
    rwa [List.map_map] at hpid
  rw [plain_prints, uniq_nodup hnames, ← takeWhile_all_iff hnodup]
  constructor
  · intro h p hp hkeeps
    obtain ⟨q, hq, hpid⟩ := List.mem_map.1 (h p (hsub.subset hp) hkeeps)
    have hqs := hsub.subset ((List.takeWhile_sublist _).subset hq)
    rwa [← List.inj_on_of_nodup_map hpids hqs (hsub.subset hp) (decimal_injective hpid)]
  · intro h p hp hkeeps
    have hlisted : p ∈ listed g_ppid g_dev ps :=
      List.mem_filter.2 ⟨hp, by simpa using listed_of_found S g_ppid g_dev (by simpa [Process.keeps] using hkeeps)⟩
    exact List.mem_map_of_mem (h p hlisted hkeeps)

end Script

/-- 300 is busy on the branch, nothing else is -/
def oneBusy : Sys where
  mntpnt := [47, 109]
  opendir := true
  ibusy := ⟨0, 0, 0⟩
  bindex := 1
  bindex_lt := by norm_num
  kernel _ ino := some (if ino = 300 then 77 else 0)
  cut args := if args = [] then [] else [args]
  cut_flatten args := by by_cases h : args = [] <;> simp [h]
  cut_ne_nil args := by by_cases h : args = [] <;> simp [h, eq_comm]

/-- a process with one file of the device 1c -/
def holder (pid ino : ℕ) (h : ino < 2 ^ 64) : Process := ⟨pid, 1, [⟨[51], some [49, 99], some ino, by simpa using h⟩]⟩

/-- a process that keeps the branch busy is named in front of an idle one, and is not behind it -/
theorem plain_names_two :
    (∀ p ∈ [holder 7 300 (by decide), holder 8 200 (by decide)], p.keeps oneBusy 5 [49, 99] →
      decimal p.pid ∈ aubusy oneBusy false (vars 5 [49, 99])
        (lsof [holder 7 300 (by decide), holder 8 200 (by decide)])) ∧
    ¬∀ p ∈ [holder 8 200 (by decide), holder 7 300 (by decide)], p.keeps oneBusy 5 [49, 99] →
      decimal p.pid ∈ aubusy oneBusy false (vars 5 [49, 99])
        (lsof [holder 8 200 (by decide), holder 7 300 (by decide)]) := by
  rw [plain_names_iff oneBusy 5 [49, 99] (by decide), plain_names_iff oneBusy 5 [49, 99] (by decide)]
  decide

end AufsUtil.Aubusy
