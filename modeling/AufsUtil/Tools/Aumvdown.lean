/-
The options of aumvdown (`aumvdown.c`), which say between which branches a file is moved: -b and -B name the lower and
the upper branch by their ids.

An id is read with strtol(3). Only a value out of range counts as an error; text behind the digits, or no digits at all,
does not. The long becomes an int, whose sign is looked at, and the int becomes the int16_t of the request.

- `case_brid_next`: what an accepted string puts into the request; `options_keep`: the other options leave it there.
- `addresses_named_iff`: every string that is accepted is a number between 0 and 32767, and is the id of the request,
  exactly for those strings, and for the strings that are rejected.

What the model keeps of C: the loop over what getopt_long(3) returns, with all cases of the switch; of struct
aufs_mvdown the flags and the two ids. A rejected string ends the program.
-/
import Mathlib.Tactic
import AufsUtil.Lib.Getopt
import AufsUtil.Lib.Strtol

namespace AufsUtil.Aumvdown

open AufsUtil.CStr AufsUtil.Strtol
open AufsUtil.Getopt (Opt)

/-! ## The switch -/

def INTERACTIVE : ℕ := 1
def VERBOSE : ℕ := 2

def AUFS_MVDOWN_DMSG : ℕ := 1 <<< 0
def AUFS_MVDOWN_OWLOWER : ℕ := 1 <<< 1
def AUFS_MVDOWN_KUPPER : ℕ := 1 <<< 2
def AUFS_MVDOWN_ROLOWER : ℕ := 1 <<< 3
def AUFS_MVDOWN_ROUPPER : ℕ := 1 <<< 5
def AUFS_MVDOWN_STFS : ℕ := 1 <<< 10

/-- AUFS_MVDOWN_UPPER and AUFS_MVDOWN_LOWER, the indices of stbr -/
inductive Side where
  | upper
  | lower
deriving DecidableEq, Repr

/-- the bit of AUFS_MVDOWN_BRID_UPPER or AUFS_MVDOWN_BRID_LOWER -/
def Side.bit : Side → ℕ
  | .upper => 7
  | .lower => 8

/-- 'B' and 'b' -/
def Side.letter : Side → UInt8
  | .upper => 66
  | .lower => 98

structure aufs_mvdown where
  flags : ℕ
  brid : Side → ℤ

structure St where
  err : ℤ
  user_flags : ℕ
  mvdown : aufs_mvdown

/-- one case of the switch: on to the next option, or `goto out` -/
inductive Turn where
  | next (st : St)
  | out (err : ℤ)

def cvt (str : Bytes) : ℤ :=
  let ret := strtol str
  if (ret.1 = LONG_MAX ∨ ret.1 = LONG_MIN) ∧ ret.2 = true then -1 else ret.1

/-- `case 'b'` and `case 'B'` -/
def case_brid (side : Side) (optarg : Bytes) (st : St) : Turn :=
  let err := toInt (cvt optarg)
  if err < 0 then .out err
  else
    .next { st with
      err := err
      mvdown := ⟨st.mvdown.flags ||| 1 <<< side.bit, fun i => if i = side then toInt16 err else st.mvdown.brid i⟩ }

def St.flag (st : St) (f : ℕ) : Turn := .next { st with mvdown := { st.mvdown with flags := st.mvdown.flags ||| f } }

def St.user (st : St) (f : ℕ) : Turn := .next { st with user_flags := st.user_flags ||| f }

/-- the cases 'k', 'o', 'r', 'R', 'd' and 's', with the flag that each of them sets -/
def mvdown_cases : List (UInt8 × ℕ) :=
  [(107, AUFS_MVDOWN_KUPPER), (111, AUFS_MVDOWN_OWLOWER), (114, AUFS_MVDOWN_ROLOWER), (82, AUFS_MVDOWN_ROUPPER),
    (100, AUFS_MVDOWN_DMSG), (115, AUFS_MVDOWN_STFS)]

/-- the cases 'i' and 'v' -/
def user_cases : List (UInt8 × ℕ) := [(105, INTERACTIVE), (118, VERBOSE)]

/-- c is the letter that getopt_long(3) returned -/
def switch (c : UInt8) (optarg : Bytes) (st : St) : Turn :=
  if c = Side.lower.letter then case_brid .lower optarg st
  else if c = Side.upper.letter then case_brid .upper optarg st
  else
    match mvdown_cases.lookup c, user_cases.lookup c with
    | some f, _ => st.flag f
    | none, some f => st.user f
    -- 'V', 'h' and '?' go out with the err of the last -b or -B
    | none, none => .out st.err

/-- the loop; an option without argument leaves optarg NULL, and its case does not look at it -/
def options : List Opt → St → Turn
  | [], st => .next st
  | o :: os, st =>
    match switch o.1 (o.2.getD []) st with
    | .next st => options os st
    | .out err => .out err

/-- before the loop; brid is not written to unless an option names it -/
def St.start (brid : Side → ℤ) : St := ⟨0, 0, ⟨0, brid⟩⟩

/-! ## One option -/

/-- the string is out of the range of long, or its low 32 bits are a negative int -/
def Rejected (s : Bytes) : Prop := number s < LONG_MIN ∨ LONG_MAX < number s ∨ toInt (number s) < 0

theorem cvt_out_of_range {s : Bytes} (h : number s < LONG_MIN ∨ LONG_MAX < number s) : cvt s = -1 := by
  unfold cvt strtol
  rcases h with h | h
  · have hle : ¬ LONG_MAX < number s := by
      simp only [LONG_MIN, LONG_MAX] at h ⊢
      omega
    rw [if_neg hle, if_pos h]
    rfl
  · rw [if_pos h]
    rfl

theorem cvt_in_range {s : Bytes} (h : LONG_MIN ≤ number s ∧ number s ≤ LONG_MAX) : cvt s = number s := by
  unfold cvt strtol
  rw [if_neg (not_lt.2 h.2), if_neg (not_lt.2 h.1)]
  simp

theorem rejected_iff (s : Bytes) : toInt (cvt s) < 0 ↔ Rejected s := by
  by_cases h : number s < LONG_MIN ∨ LONG_MAX < number s
  · rw [cvt_out_of_range h, Rejected, ← or_assoc]
    exact iff_of_true (by decide) (Or.inl h)
  · rw [not_or, not_lt, not_lt] at h
    rw [cvt_in_range h, Rejected, or_iff_right (not_lt.2 h.1), or_iff_right (not_lt.2 h.2)]

/-- what an accepted string puts into the request -/
theorem case_brid_next {side : Side} {s : Bytes} {st st' : St} (h : case_brid side s st = .next st') :
    ¬ Rejected s ∧ st'.mvdown.flags.testBit side.bit = true ∧ st'.mvdown.brid side = toInt16 (toInt (number s)) := by
  rw [case_brid] at h
  split_ifs at h with hneg
  have hrej := (rejected_iff s).not.1 hneg
  have hrange : LONG_MIN ≤ number s ∧ number s ≤ LONG_MAX := by
    simp only [Rejected, not_or, not_lt] at hrej
    exact ⟨hrej.1, hrej.2.1⟩
  rw [Turn.next.injEq] at h
  subst h
  refine ⟨hrej, ?_, ?_⟩
  · simp [Nat.testBit_or, Nat.testBit_shiftLeft]
  · simp [cvt_in_range hrange]

theorem case_brid_accepted (side : Side) {s : Bytes} (st : St) (h : ¬ Rejected s) :
    ∃ st', case_brid side s st = .next st' := by
  rw [case_brid, if_neg ((rejected_iff s).not.2 h)]
  exact ⟨_, rfl⟩

theorem switch_letter (side : Side) (s : Bytes) (st : St) : switch side.letter s st = case_brid side s st := by
  cases side <;> rfl

/-! ## The loop -/

/-- the flag of a side, once it is set, and its id stay, unless the option of the side comes again -/
structure Keeps (side : Side) (st st' : St) : Prop where
  flag : st.mvdown.flags.testBit side.bit = true → st'.mvdown.flags.testBit side.bit = true
  brid : st'.mvdown.brid side = st.mvdown.brid side

theorem Keeps.refl (side : Side) (st : St) : Keeps side st st := ⟨id, rfl⟩

theorem Keeps.trans {side : Side} {s t u : St} (h : Keeps side s t) (h' : Keeps side t u) : Keeps side s u :=
  ⟨fun hf => h'.flag (h.flag hf), h'.brid.trans h.brid⟩

theorem flag_keeps (side : Side) {st st' : St} {f : ℕ} (h : st.flag f = .next st') : Keeps side st st' := by
  rw [St.flag, Turn.next.injEq] at h
  subst h
  exact ⟨fun hf => by simp [Nat.testBit_or, hf], rfl⟩

theorem user_keeps (side : Side) {st st' : St} {f : ℕ} (h : st.user f = .next st') : Keeps side st st' := by
  rw [St.user, Turn.next.injEq] at h
  subst h
  exact ⟨id, rfl⟩

theorem brid_keeps {side other : Side} (hne : side ≠ other) {s : Bytes} {st st' : St}
    (h : case_brid other s st = .next st') : Keeps side st st' := by
  rw [case_brid] at h
  split_ifs at h
  rw [Turn.next.injEq] at h
  subst h
  exact ⟨fun hf => by simp [Nat.testBit_or, hf], if_neg hne⟩

theorem switch_keeps {side : Side} {c : UInt8} (hc : c ≠ side.letter) {s : Bytes} {st st' : St}
    (h : switch c s st = .next st') : Keeps side st st' := by
  rw [switch] at h
  split_ifs at h with hb hB
  · refine brid_keeps ?_ h
    rintro rfl
    exact hc hb
  · refine brid_keeps ?_ h
    rintro rfl
    exact hc hB
  · split at h
    · exact flag_keeps side h
    · exact user_keeps side h
    · cases h

theorem options_cons {o : Opt} {os : List Opt} {st u : St} :
    options (o :: os) st = .next u ↔ ∃ t, switch o.1 (o.2.getD []) st = .next t ∧ options os t = .next u := by
  rw [options]
  cases switch o.1 (o.2.getD []) st <;> simp

theorem options_append {os ps : List Opt} {st u : St} :
    options (os ++ ps) st = .next u ↔ ∃ t, options os st = .next t ∧ options ps t = .next u := by
  induction os generalizing st with
  | nil => simp [options]
  | cons o os ih =>
    simp only [List.cons_append, options_cons, ih]
    exact ⟨fun ⟨t, ht, v, hv, hu⟩ => ⟨v, ⟨t, ht, hv⟩, hu⟩, fun ⟨v, ⟨t, ht, hv⟩, hu⟩ => ⟨t, ht, v, hv, hu⟩⟩

/-- **The other options** leave an id alone. -/
theorem options_keep {side : Side} {os : List Opt} (hos : ∀ o ∈ os, o.1 ≠ side.letter) {st u : St}
    (h : options os st = .next u) : Keeps side st u := by
  induction os generalizing st with
  | nil =>
    rw [options, Turn.next.injEq] at h
    exact h ▸ Keeps.refl side st
  | cons o os ih =>
    obtain ⟨t, ht, hu⟩ := options_cons.1 h
    have hone := switch_keeps (hos o List.mem_cons_self) ht
    exact hone.trans (ih (fun p hp => hos p (List.mem_cons_of_mem o hp)) hu)

/-! ## The named branch -/

/-- With -b s or -B s as the last option of its kind the loop ends the program, or s is a number between 0 and 32767 and
stands in the request, marked as given. -/
def AddressesNamed (s : Bytes) : Prop :=
  ∀ (side : Side) (os ps : List Opt) (brid : Side → ℤ) (st : St), (∀ o ∈ ps, o.1 ≠ side.letter) →
    options (os ++ (side.letter, some s) :: ps) (St.start brid) = .next st →
    ∃ n, IsNumeral s n ∧ 0 ≤ n ∧ n ≤ 32767 ∧ st.mvdown.brid side = n ∧ st.mvdown.flags.testBit side.bit = true

/-- **The named branch** is addressed exactly if the string is rejected, or is the number of a branch. -/
theorem addresses_named_iff (s : Bytes) :
    AddressesNamed s ↔ Rejected s ∨ ∃ n, IsNumeral s n ∧ 0 ≤ n ∧ n ≤ 32767 := by
  constructor
  · intro h
    by_cases hrej : Rejected s
    · exact Or.inl hrej
    · obtain ⟨st, hst⟩ := case_brid_accepted .lower (St.start fun _ => 0) hrej
      rw [← switch_letter] at hst
      obtain ⟨n, hn, h0, h1, -⟩ := h .lower [] [] (fun _ => 0) st (by simp) (options_cons.2 ⟨st, hst, rfl⟩)
      exact Or.inr ⟨n, hn, h0, h1⟩
  · intro h side os ps brid st hps hrun
    obtain ⟨t, -, hrest⟩ := options_append.1 hrun
    obtain ⟨u, hone, hlast⟩ := options_cons.1 hrest
    rw [Option.getD_some, switch_letter] at hone
    obtain ⟨hrej, hflag, hbrid⟩ := case_brid_next hone
    obtain ⟨n, hn, h0, h1⟩ := h.resolve_left hrej
    have hkeep := options_keep hps hlast
    refine ⟨n, hn, h0, h1, ?_, hkeep.flag hflag⟩
    rw [hkeep.brid, hbrid, number_numeral hn, toInt_of_lt (by omega) (by omega), toInt16_of_lt h0 (by omega)]

theorem number_65536 : number [54, 53, 53, 51, 54] = 65536 := by decide +kernel

/-- "65536" is accepted, and means branch 0 -/
theorem large_id_wraps : ¬ AddressesNamed [54, 53, 53, 51, 54] := by
  intro h
  have hrej : ¬ Rejected [54, 53, 53, 51, 54] := by
    rw [Rejected, number_65536, toInt_of_lt (by norm_num) (by norm_num), LONG_MIN, LONG_MAX]
    norm_num
  obtain ⟨st, hst⟩ := case_brid_accepted .lower (St.start fun _ => 0) hrej
  rw [← switch_letter] at hst
  obtain ⟨n, hn, -, h1, -⟩ := h .lower [] [] (fun _ => 0) st (by simp) (options_cons.2 ⟨st, hst, rfl⟩)
  rw [← number_numeral hn, number_65536] at h1
  omega

end AufsUtil.Aumvdown
