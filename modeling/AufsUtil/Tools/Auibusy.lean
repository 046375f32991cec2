/-
auibusy (`auibusy.c`): ask for inode numbers whether they are busy on a branch. The numbers are arguments, or, if there
are none, lines of the standard input.

An argument is parsed whole. The input is read with fgets(3) into sixteen bytes, fifteen characters at a time: a line
with fifteen digits is read as two, the number and an empty line, a longer one as two numbers.

- `args_loop_congr`: the run depends on the texts only through the numbers that strtoul(3) reads.
- `fgets_loop_lines`: the loop over lines is the loop over their pieces.
- `stdin_as_arguments_iff`: both ways make the same requests and end alike, whatever the ioctl(2)s return, exactly if
  every number has at most fourteen digits.

What the model keeps of C: the requests with the whole struct, which is used again for the next one, as the kernel left
it; what is printed; when the loops stop. The answers of ioctl(2) are an input. The text of perror(3) is not kept.
-/
import Mathlib.Tactic
import AufsUtil.Fhsm.Numerals

namespace AufsUtil.Auibusy

open AufsUtil.CStr AufsUtil.Strtol
open AufsUtil.Fhsm.Lister (decimal decimal_isdigit spelled_decimal strtoul_decimal lt_pow_decimal pow_le_decimal
  decimal_cons)

def AUFS_ROOT_INO : ℕ := 2

def ULONG_MAX : ℕ := 2 ^ 64 - 1

structure aufs_ibusy where
  ino : ℕ
  h_ino : ℕ
  bindex : ℤ
deriving DecidableEq, Repr

/-- what ioctl(2) returns, and what it leaves in the struct -/
structure Answer where
  err : ℤ
  ibusy : aufs_ibusy

inductive Event where
  | ioctl (request : aufs_ibusy)
  | printf (ino : ℕ) (bindex : ℤ) (h_ino : ℕ)
deriving DecidableEq, Repr

/-- the struct, how many ioctl(2)s were made, and all that was done -/
structure St where
  ibusy : aufs_ibusy
  asked : ℕ
  done : List Event
deriving DecidableEq, Repr

def do_ibusy (answers : ℕ → Answer) (inum : Bytes) (st : St) : ℤ × St :=
  match strtoul inum with
  | none => (-1, { st with ibusy := { st.ibusy with ino := ULONG_MAX } })
  | some ino =>
    let ibusy := { st.ibusy with ino := ino }
    if ino = AUFS_ROOT_INO then (0, { st with ibusy := ibusy })
    else
      let a := answers st.asked
      let busy := if a.err = 0 ∧ a.ibusy.h_ino ≠ 0 then [.printf a.ibusy.ino a.ibusy.bindex a.ibusy.h_ino] else []
      (a.err, ⟨a.ibusy, st.asked + 1, st.done ++ .ioctl ibusy :: busy⟩)

/-- the loop over the arguments; err is what was returned last -/
def args_loop (answers : ℕ → Answer) : List Bytes → ℤ → St → ℤ × St
  | [], err, st => (err, st)
  | a :: as, _, st =>
    let r := do_ibusy answers a st
    if r.1 ≠ 0 then r else args_loop answers as r.1 r.2

/-- fgets(3) with n bytes: up to n - 1 characters, not beyond a newline, and the rest of the input -/
def fgets (n : ℕ) (input : Bytes) : Option (Bytes × Bytes) :=
  if input = [] then none
  else
    let line := (input.takeWhile (· ≠ 10)).length + 1
    some (input.take (min line (n - 1)), input.drop (min line (n - 1)))

/-- the loop over the standard input; `none` when the fuel is used up -/
def fgets_loop (answers : ℕ → Answer) : ℕ → Bytes → ℤ → St → Option (ℤ × St)
  | 0, _, _, _ => none
  | fuel + 1, input, err, st =>
    match fgets 16 input with
    | none => some (err, st)
    | some (a, input) =>
      let r := do_ibusy answers a st
      if r.1 ≠ 0 then some r else fgets_loop answers fuel input r.1 r.2

/-- main behind argv[0]; `opendir` says whether the mount point can be opened, ibusy is not initialised -/
def main (fuel : ℕ) (argv : List Bytes) (input : Bytes) (opendir : Bool) (ibusy : aufs_ibusy) (answers : ℕ → Answer) :
    Option (ℤ × St) :=
  match argv with
  | _mntpnt :: bindex :: inums =>
    if !opendir then some (-1, ⟨ibusy, 0, []⟩)
    else
      match strtoul bindex with
      | none => some (-1, ⟨{ ibusy with bindex := toInt16 ULONG_MAX }, 0, []⟩)
      | some b =>
        let st : St := ⟨{ ibusy with bindex := toInt16 b }, 0, []⟩
        if inums = [] then fgets_loop answers fuel input (-1) st else some (args_loop answers inums (-1) st)
  | _ => some (-1, ⟨ibusy, 0, []⟩)

/-! ## Runs over texts -/

/-- only the numbers matter that are read -/
theorem args_loop_congr (answers : ℕ → Answer) {ts us : List Bytes} (h : ts.map strtoul = us.map strtoul) (err : ℤ)
    (st : St) : args_loop answers ts err st = args_loop answers us err st := by
  induction ts generalizing us err st with
  | nil => rw [List.map_eq_nil_iff.1 h.symm]
  | cons t ts ih =>
    cases us with
    | nil => simp at h
    | cons u us =>
      rw [List.map_cons, List.map_cons, List.cons.injEq] at h
      have hone : do_ibusy answers t st = do_ibusy answers u st := by rw [do_ibusy, do_ibusy, h.1]
      rw [args_loop, args_loop, hone]
      split_ifs
      · rfl
      · exact ih h.2 _ _

/-- what the calls of fgets(3) return -/
def chunks : ℕ → Bytes → List Bytes
  | 0, _ => []
  | fuel + 1, input =>
    match fgets 16 input with
    | none => []
    | some (a, input) => a :: chunks fuel input

theorem fgets_length {input a rest : Bytes} (h : fgets 16 input = some (a, rest)) : rest.length < input.length := by
  rw [fgets] at h
  split_ifs at h with hnil
  rw [Option.some.injEq, Prod.mk.injEq] at h
  have hpos := List.length_pos_iff.2 hnil
  rw [← h.2, List.length_drop]
  omega

theorem fgets_loop_eq (answers : ℕ → Answer) (fuel : ℕ) : ∀ (input : Bytes) (err : ℤ) (st : St), input.length < fuel →
    fgets_loop answers fuel input err st = some (args_loop answers (chunks fuel input) err st) := by
  induction fuel with
  | zero => exact fun input _ _ h => absurd h (Nat.not_lt_zero _)
  | succ fuel ih =>
    intro input err st hlen
    rw [fgets_loop, chunks]
    cases h : fgets 16 input with
    | none => rfl
    | some p =>
      obtain ⟨a, rest⟩ := p
      have hrest := fgets_length h
      dsimp only
      rw [args_loop]
      split_ifs
      · rfl
      · exact ih rest _ _ (by omega)

/-! ## Lines -/

/-- a line for each number -/
def lines (ts : List Bytes) : Bytes := ts.flatMap (· ++ [10])

/-- the pieces in which a line of less than thirty characters is read -/
def pieces (t : Bytes) : List Bytes := if t.length < 15 then [t ++ [10]] else [t.take 15, t.drop 15 ++ [10]]

theorem takeWhile_line {t : Bytes} (rest : Bytes) (h10 : (10 : UInt8) ∉ t) :
    (t ++ 10 :: rest).takeWhile (· ≠ 10) = t := by
  rw [List.takeWhile_append_of_pos]
  · simp
  · intro c hc
    have : c ≠ 10 := fun h => h10 (h ▸ hc)
    simpa using this

/-- a call that reads the rest of a line -/
theorem fgets_short {t : Bytes} (rest : Bytes) (h10 : (10 : UInt8) ∉ t) (hlen : t.length < 15) :
    fgets 16 (t ++ 10 :: rest) = some (t ++ [10], rest) := by
  rw [fgets, if_neg (by simp), takeWhile_line rest h10]
  simp only [Nat.min_eq_left (show t.length + 1 ≤ 16 - 1 by omega)]
  rw [List.take_append, List.drop_append]
  simp

/-- a call in a line that is longer -/
theorem fgets_long {t : Bytes} (rest : Bytes) (h10 : (10 : UInt8) ∉ t) (hlen : 15 ≤ t.length) :
    fgets 16 (t ++ 10 :: rest) = some (t.take 15, t.drop 15 ++ 10 :: rest) := by
  rw [fgets, if_neg (by simp), takeWhile_line rest h10]
  simp only [Nat.min_eq_right (show 16 - 1 ≤ t.length + 1 by omega)]
  rw [List.take_append_of_le_length hlen, List.drop_append_of_le_length hlen]

theorem chunks_lines {ts : List Bytes} (h10 : ∀ t ∈ ts, (10 : UInt8) ∉ t) (hlen : ∀ t ∈ ts, t.length < 30) :
    ∀ fuel, (lines ts).length < fuel → chunks fuel (lines ts) = ts.flatMap pieces := by
  induction ts with
  | nil =>
    intro fuel hfuel
    obtain ⟨fuel, rfl⟩ : ∃ f, fuel = f + 1 := ⟨fuel - 1, by omega⟩
    rfl
  | cons t ts ih =>
    intro fuel hfuel
    have hsplit : lines (t :: ts) = t ++ 10 :: lines ts := by simp [lines]
    have ht10 := h10 t List.mem_cons_self
    have htlen := hlen t List.mem_cons_self
    have hrest := ih (fun u hu => h10 u (List.mem_cons_of_mem t hu)) fun u hu => hlen u (List.mem_cons_of_mem t hu)
    rw [hsplit, List.length_append, List.length_cons] at hfuel
    obtain ⟨fuel, rfl⟩ : ∃ f, fuel = f + 1 := ⟨fuel - 1, by omega⟩
    rw [hsplit, chunks, List.flatMap_cons, pieces]
    by_cases hshort : t.length < 15
    · rw [fgets_short _ ht10 hshort, if_pos hshort]
      exact congrArg _ (hrest fuel (by omega))
    · obtain ⟨fuel, rfl⟩ : ∃ f, fuel = f + 1 := ⟨fuel - 1, by omega⟩
      have hd10 : (10 : UInt8) ∉ t.drop 15 := fun h => ht10 (List.mem_of_mem_drop h)
      rw [fgets_long _ ht10 (by omega), if_neg hshort]
      dsimp only
      rw [chunks, fgets_short _ hd10 (by rw [List.length_drop]; omega)]
      exact congrArg (fun l => t.take 15 :: (t.drop 15 ++ [10]) :: l) (hrest fuel (by omega))

/-- **The loop over lines** is the loop over their pieces. -/
theorem fgets_loop_lines (answers : ℕ → Answer) {ts : List Bytes} (h10 : ∀ t ∈ ts, (10 : UInt8) ∉ t)
    (hlen : ∀ t ∈ ts, t.length < 30) {fuel : ℕ} (hfuel : (lines ts).length < fuel) (err : ℤ) (st : St) :
    fgets_loop answers fuel (lines ts) err st = some (args_loop answers (ts.flatMap pieces) err st) := by
  rw [fgets_loop_eq answers fuel _ err st hfuel, chunks_lines h10 hlen fuel hfuel]

/-! ## Requests -/

/-- the requests among what was done -/
def requests (done : List Event) : List aufs_ibusy :=
  done.filterMap fun e => match e with
    | .ioctl r => some r
    | .printf _ _ _ => none

/-- every ioctl(2) succeeds, and finds nothing -/
def idle : ℕ → Answer := fun _ => ⟨0, ⟨0, 0, 0⟩⟩

/-- the numbers that are asked for if nothing fails -/
def asked_for (ts : List Bytes) : List ℕ := (ts.filterMap strtoul).filter (· ≠ AUFS_ROOT_INO)

theorem asked_for_cons {t : Bytes} {n : ℕ} (h : strtoul t = some n) (ts : List Bytes) :
    asked_for (t :: ts) = (if n = AUFS_ROOT_INO then [] else [n]) ++ asked_for ts := by
  rw [asked_for, List.filterMap_cons_some h, List.filter_cons]
  by_cases h2 : n = AUFS_ROOT_INO <;> simp [h2, asked_for]

/-- a run in which nothing fails makes a request for each number -/
theorem idle_requests {ts : List Bytes} (hts : ∀ t ∈ ts, strtoul t ≠ none) : ∀ (err : ℤ) (st : St),
    st.ibusy.h_ino = 0 → st.ibusy.bindex = 0 →
    requests (args_loop idle ts err st).2.done =
      requests st.done ++ (asked_for ts).map fun n => (⟨n, 0, 0⟩ : aufs_ibusy) := by
  induction ts with
  | nil => simp [args_loop, asked_for]
  | cons t ts ih =>
    intro err st hino hindex
    obtain ⟨n, hn⟩ := Option.ne_none_iff_exists'.1 (hts t List.mem_cons_self)
    have hrest := ih fun u hu => hts u (List.mem_cons_of_mem t hu)
    rw [args_loop, asked_for_cons hn, do_ibusy, hn]
    by_cases h2 : n = AUFS_ROOT_INO
    · simp only [h2, if_true, ne_eq, not_true_eq_false, if_false, List.nil_append]
      exact hrest _ _ hino hindex
    · simp only [h2, if_false, idle, ne_eq, not_true_eq_false, and_false]
      rw [hrest _ _ rfl rfl]
      simp [requests, hino, hindex]

/-! ## Numbers -/

theorem decimal_newline (n : ℕ) : (10 : UInt8) ∉ decimal n := fun h => absurd (decimal_isdigit n 10 h) (by decide)

theorem length_decimal_le {n k : ℕ} (hk : 0 < k) (hn : n < 10 ^ k) : (decimal n).length ≤ k := by
  by_cases h0 : n = 0
  · rw [h0]
    exact hk
  · have hlt := (Nat.pow_lt_pow_iff_right (by norm_num : 1 < 10)).1 ((pow_le_decimal h0).trans_lt hn)
    omega

theorem lt_length_decimal {n k : ℕ} (hn : 10 ^ k ≤ n) : k < (decimal n).length :=
  (Nat.pow_lt_pow_iff_right (by norm_num : 1 < 10)).1 (hn.trans_lt (lt_pow_decimal n))

theorem strtoul_own {n : ℕ} (hn : n < 2 ^ 64) : strtoul (decimal n) = some n := by
  have := strtoul_decimal hn (Or.inl rfl)
  rwa [List.append_nil] at this

theorem length_lt_thirty {n : ℕ} (hn : n < 2 ^ 64) : (decimal n).length < 30 := by
  have := length_decimal_le (k := 20) (by norm_num) (by omega : n < 10 ^ 20)
  omega

/-- the pieces of a number with at most fourteen digits mean the number -/
theorem pieces_short {n : ℕ} (hn : n < 10 ^ 14) : (pieces (decimal n)).map strtoul = [some n] := by
  have hlen := length_decimal_le (by norm_num) hn
  rw [pieces, if_pos (by omega), List.map_singleton, strtoul_decimal (by omega) (Or.inr rfl)]

/-- the first fifteen digits of a longer number are a number that is not smaller than 10^14 -/
theorem pieces_long {n : ℕ} (hn : 10 ^ 14 ≤ n) :
    ∃ m, pieces (decimal n) = [(decimal n).take 15, (decimal n).drop 15 ++ [10]] ∧
    strtoul ((decimal n).take 15) = some m ∧ 10 ^ 14 ≤ m ∧ m < 10 ^ 15 ∧ (n < 10 ^ 15 → m = n) := by
  have hlen := lt_length_decimal hn
  obtain ⟨c, ds, hcons, h48⟩ := decimal_cons (show n ≠ 0 by omega)
  have htake : (decimal n).take 15 = c :: ds.take 14 := by rw [hcons]; rfl
  have hds : ∀ d ∈ c :: ds.take 14, isdigit d = true := fun d hd =>
    decimal_isdigit n d (List.mem_of_mem_take (htake ▸ hd))
  have htaken : (ds.take 14).length = 14 := by
    rw [hcons, List.length_cons] at hlen
    rw [List.length_take]
    omega
  have hlow := le_spelled (ds.take 14) (hds c List.mem_cons_self) h48
  have hhigh := spelled_lt hds
  rw [List.length_cons, htaken] at hhigh
  rw [htaken] at hlow
  have hread := strtoul_numeral [] hds h48 (by simp) (by omega)
  rw [List.append_nil] at hread
  refine ⟨spelled (c :: ds.take 14), by rw [pieces, if_neg (by omega)], htake ▸ hread, hlow, hhigh, fun hlt => ?_⟩
  have hle := length_decimal_le (by norm_num) hlt
  rw [← htake, List.take_of_length_le (by omega), spelled_decimal]

/-- the rest of a line of digits is a number as well, and that of fifteen digits is no digit at all -/
theorem strtoul_rest {n : ℕ} (hn : n < 2 ^ 64) :
    ∃ m, strtoul ((decimal n).drop 15 ++ [10]) = some m ∧ (10 ^ 14 ≤ n → n < 10 ^ 15 → m = 0) := by
  have hlen := length_lt_thirty hn
  obtain ⟨m, hm⟩ := strtoul_short (s := (decimal n).drop 15 ++ [10]) (by simp; omega)
  refine ⟨m, hm, fun _ hlt => ?_⟩
  have hle := length_decimal_le (by norm_num) hlt
  rw [List.drop_of_length_le hle] at hm
  exact Option.some.inj (hm.symm.trans rfl)

/-- what is asked for with the numbers as arguments, and as lines -/
def asked_args (nums : List ℕ) : List ℕ := asked_for (nums.map decimal)

def asked_lines (nums : List ℕ) : List ℕ := asked_for ((nums.map decimal).flatMap pieces)

theorem asked_args_cons {n : ℕ} (hn : n < 2 ^ 64) (nums : List ℕ) :
    asked_args (n :: nums) = (if n = AUFS_ROOT_INO then [] else [n]) ++ asked_args nums :=
  asked_for_cons (strtoul_own hn) _

/-- a line with at most fourteen digits -/
theorem asked_lines_short {n : ℕ} (hn : n < 10 ^ 14) (nums : List ℕ) :
    asked_lines (n :: nums) = (if n = AUFS_ROOT_INO then [] else [n]) ++ asked_lines nums := by
  have hshort := pieces_short hn
  obtain ⟨p, hp⟩ : ∃ p, pieces (decimal n) = [p] := by
    rw [← List.length_eq_one_iff, ← List.length_map (f := strtoul), hshort, List.length_singleton]
  rw [hp, List.map_singleton, List.singleton_inj] at hshort
  rw [asked_lines, List.map_cons, List.flatMap_cons, hp, List.singleton_append, asked_for_cons hshort, asked_lines]

/-- a longer one: the number that its first fifteen digits mean, and the rest -/
theorem asked_lines_long {n : ℕ} (hn : n < 2 ^ 64) (hlong : 10 ^ 14 ≤ n) (nums : List ℕ) :
    ∃ m r, asked_lines (n :: nums) = m :: ((if r = AUFS_ROOT_INO then [] else [r]) ++ asked_lines nums) ∧
      m < 10 ^ 15 ∧ (n < 10 ^ 15 → m = n ∧ r = 0) := by
  obtain ⟨m, hp, hm, hlow, hhigh, hsame⟩ := pieces_long hlong
  obtain ⟨r, hr, hzero⟩ := strtoul_rest hn
  have h2 : m ≠ AUFS_ROOT_INO := by
    rw [AUFS_ROOT_INO]
    omega
  refine ⟨m, r, ?_, hhigh, fun hlt => ⟨hsame hlt, hzero hlong hlt⟩⟩
  rw [asked_lines, List.map_cons, List.flatMap_cons, hp, List.cons_append, List.singleton_append, asked_for_cons hm,
    if_neg h2, asked_for_cons hr, asked_lines]
  rfl

/-- lines never ask for less -/
theorem length_asked_le {nums : List ℕ} (hnums : ∀ n ∈ nums, n < 2 ^ 64) :
    (asked_args nums).length ≤ (asked_lines nums).length := by
  induction nums with
  | nil => exact le_rfl
  | cons n nums ih =>
    have hn := hnums n List.mem_cons_self
    have hrest := ih fun k hk => hnums k (List.mem_cons_of_mem n hk)
    rw [asked_args_cons hn, List.length_append]
    have hone : (if n = AUFS_ROOT_INO then [] else [n]).length ≤ 1 := by split_ifs <;> simp
    rcases lt_or_ge n (10 ^ 14) with hshort | hlong
    · rw [asked_lines_short hshort, List.length_append]
      omega
    · obtain ⟨m, r, hasked, -⟩ := asked_lines_long hn hlong nums
      rw [hasked, List.length_cons, List.length_append]
      omega

/-- a number with fifteen digits or more makes the difference -/
theorem asked_ne {nums : List ℕ} (hnums : ∀ n ∈ nums, n < 2 ^ 64) (hlong : ∃ n ∈ nums, 10 ^ 14 ≤ n) :
    asked_lines nums ≠ asked_args nums := by
  induction nums with
  | nil => simp at hlong
  | cons n nums ih =>
    have hn := hnums n List.mem_cons_self
    have hall : ∀ k ∈ nums, k < 2 ^ 64 := fun k hk => hnums k (List.mem_cons_of_mem n hk)
    rw [asked_args_cons hn]
    rcases lt_or_ge n (10 ^ 14) with hshort | hn14
    · -- the difference comes later
      obtain ⟨k, hk, hk14⟩ := hlong
      rw [asked_lines_short hshort, Ne, List.append_cancel_left_eq]
      refine ih hall ⟨k, ?_, hk14⟩
      rcases List.mem_cons.1 hk with rfl | hk
      · omega
      · exact hk
    · obtain ⟨m, r, hasked, hm, hfifteen⟩ := asked_lines_long hn hn14 nums
      have hroot : n ≠ AUFS_ROOT_INO := by
        rw [AUFS_ROOT_INO]
        omega
      rw [hasked, if_neg hroot, List.singleton_append]
      intro h
      rw [List.cons.injEq] at h
      -- sixteen digits or more: another number; fifteen: one request more
      have hlt : n < 10 ^ 15 := h.1 ▸ hm
      obtain ⟨-, rfl⟩ := hfifteen hlt
      have hlen := congrArg List.length h.2
      rw [if_neg (by decide), List.length_append, List.length_singleton] at hlen
      have := length_asked_le hall
      omega

/-! ## Both ways -/

/-- For the same mount point and bindex and the same answers, the numbers as lines of the input and as arguments lead to
the same requests and the same result. -/
def SameRequests (nums : List ℕ) : Prop :=
  ∀ (mntpnt bindex : Bytes) (opendir : Bool) (ibusy : aufs_ibusy) (answers : ℕ → Answer) (fuel : ℕ),
    (lines (nums.map decimal)).length < fuel → ∃ r r',
      main fuel [mntpnt, bindex] (lines (nums.map decimal)) opendir ibusy answers = some r ∧
      main fuel (mntpnt :: bindex :: nums.map decimal) (lines (nums.map decimal)) opendir ibusy answers = some r' ∧
      requests r.2.done = requests r'.2.done ∧ r.1 = r'.1

theorem main_lines {nums : List ℕ} (hnums : ∀ n ∈ nums, n < 2 ^ 64) {fuel : ℕ}
    (hfuel : (lines (nums.map decimal)).length < fuel) (answers : ℕ → Answer) (err : ℤ) (st : St) :
    fgets_loop answers fuel (lines (nums.map decimal)) err st =
      some (args_loop answers ((nums.map decimal).flatMap pieces) err st) := by
  refine fgets_loop_lines answers ?_ ?_ hfuel err st
  · intro t ht
    obtain ⟨n, -, rfl⟩ := List.mem_map.1 ht
    exact decimal_newline n
  · intro t ht
    obtain ⟨n, hn, rfl⟩ := List.mem_map.1 ht
    exact length_lt_thirty (hnums n hn)

theorem pieces_all_short {nums : List ℕ} (h : ∀ n ∈ nums, n < 10 ^ 14) :
    ((nums.map decimal).flatMap pieces).map strtoul = (nums.map decimal).map strtoul := by
  induction nums with
  | nil => rfl
  | cons n nums ih =>
    have hn := h n List.mem_cons_self
    rw [List.map_cons, List.flatMap_cons, List.map_append, pieces_short hn, List.map_cons,
      ih fun k hk => h k (List.mem_cons_of_mem n hk), strtoul_own (by omega)]
    rfl

theorem strtoul_pieces {nums : List ℕ} (hnums : ∀ n ∈ nums, n < 2 ^ 64) :
    ∀ t ∈ (nums.map decimal).flatMap pieces, strtoul t ≠ none := by
  intro t ht
  obtain ⟨u, hu, htu⟩ := List.mem_flatMap.1 ht
  obtain ⟨n, hn, rfl⟩ := List.mem_map.1 hu
  have hlen := length_lt_thirty (hnums n hn)
  have hshort : t.length < 16 := by
    rw [pieces] at htu
    split_ifs at htu with h15
    · rw [List.mem_singleton] at htu
      rw [htu, List.length_append, List.length_singleton]
      omega
    · rcases List.mem_pair.1 htu with rfl | rfl
      · rw [List.length_take]
        omega
      · rw [List.length_append, List.length_drop, List.length_singleton]
        omega
  obtain ⟨m, hm⟩ := strtoul_short hshort
  rw [hm]
  exact Option.some_ne_none m

/-- a longer number makes a request more, or another request -/
theorem same_requests_short {nums : List ℕ} (hnums : ∀ n ∈ nums, n < 2 ^ 64) :
    SameRequests nums → ∀ n ∈ nums, n < 10 ^ 14 := by
  intro h
  by_contra hlong
  push Not at hlong
  obtain ⟨r, r', hr, hr', hsame, -⟩ := h [] [48] true ⟨0, 0, 0⟩ idle _ (Nat.lt_succ_self _)
  have hne : nums.map decimal ≠ [] := by
    rw [Ne, List.map_eq_nil_iff]
    rintro rfl
    simp at hlong
  have hzero : strtoul [48] = some 0 := rfl
  simp only [main, hzero, Bool.not_true, Bool.false_eq_true, if_false, if_true, if_neg hne,
    main_lines hnums (Nat.lt_succ_self _), Option.some.injEq] at hr hr'
  rw [← hr, ← hr', idle_requests (strtoul_pieces hnums) _ _ rfl rfl, idle_requests ?_ _ _ rfl rfl] at hsame
  · have hinj : Function.Injective fun n => (⟨n, 0, 0⟩ : aufs_ibusy) := fun m n hmn => congrArg aufs_ibusy.ino hmn
    exact asked_ne hnums hlong (List.map_injective_iff.2 hinj (List.append_cancel_left hsame))
  · intro t ht
    obtain ⟨n, hn, rfl⟩ := List.mem_map.1 ht
    rw [strtoul_own (hnums n hn)]
    exact Option.some_ne_none n

theorem same_requests_of_short {nums : List ℕ} (hnums : ∀ n ∈ nums, n < 2 ^ 64) :
    (∀ n ∈ nums, n < 10 ^ 14) → SameRequests nums := by
  intro hshort mntpnt bindex opendir ibusy answers fuel hfuel
  have hloop : ∀ err st, fgets_loop answers fuel (lines (nums.map decimal)) err st =
      some (args_loop answers (nums.map decimal) err st) := by
    intro err st
    rw [main_lines hnums hfuel, args_loop_congr answers (pieces_all_short hshort)]
  have hmain : main fuel [mntpnt, bindex] (lines (nums.map decimal)) opendir ibusy answers =
      main fuel (mntpnt :: bindex :: nums.map decimal) (lines (nums.map decimal)) opendir ibusy answers := by
    by_cases hnil : nums.map decimal = []
    · rw [hnil]
    · simp only [main, if_neg hnil, if_true, hloop]
  obtain ⟨r, hr⟩ : ∃ r, main fuel (mntpnt :: bindex :: nums.map decimal) (lines (nums.map decimal)) opendir ibusy
      answers = some r := by
    rw [main]
    cases opendir with
    | false => exact ⟨_, rfl⟩
    | true =>
      cases strtoul bindex with
      | none => exact ⟨_, rfl⟩
      | some b =>
        simp only [Bool.not_true, Bool.false_eq_true, if_false, hloop]
        split_ifs <;> exact ⟨_, rfl⟩
  exact ⟨r, r, hmain.trans hr, hr, rfl, rfl⟩

/-- **Lines and arguments** are the same exactly for numbers of at most fourteen digits. -/
theorem stdin_as_arguments_iff (nums : List ℕ) (hnums : ∀ n ∈ nums, n < 2 ^ 64) :
    SameRequests nums ↔ ∀ n ∈ nums, n < 10 ^ 14 :=
  ⟨same_requests_short hnums, same_requests_of_short hnums⟩

theorem stdin_as_arguments_three : SameRequests [1, 2, 99999999999999] :=
  (stdin_as_arguments_iff _ (by decide)).2 (by decide)

/-- the line of a number with fifteen digits is followed by a request for 0 -/
theorem fifteen_digits_twice : ¬ SameRequests [123456789012345] := by
  intro h
  have := same_requests_short (by decide) h 123456789012345 List.mem_cons_self
  omega

end AufsUtil.Auibusy
