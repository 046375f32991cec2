/-
strtol(3) and strtoul(3), with 64-bit long, in the C locale.

The text may begin with white space and a sign; then come the digits of the base, and whatever follows them is not
looked at. With base 0 the digits choose the base: 0x for sixteen, 0 for eight, else ten. Without any digit the number
is 0, and errno is left alone.

- `value_digits`: the number that decimal digits spell.
- `strtoul_short`: less than sixteen characters are never out of range.
- `strtoul_numeral`: a numeral without leading zeros is read in base 0 as it is spelled.
- `number_numeral`: and in base 10 every numeral is, behind white space and a sign.
-/
import Mathlib.Tactic
import AufsUtil.Lib.CStr

namespace AufsUtil.Strtol

open AufsUtil.CStr

/-- isspace(3) -/
def isspace (c : UInt8) : Bool := c == 32 || (9 ≤ c && c ≤ 13)

/-- isdigit(3) -/
def isdigit (c : UInt8) : Bool := 48 ≤ c && c ≤ 57

/-- the value of a digit or a letter -/
def digit (c : UInt8) : Option ℕ :=
  if 48 ≤ c && c ≤ 57 then some (c.toNat - 48)
  else if 97 ≤ c && c ≤ 122 then some (c.toNat - 87)
  else if 65 ≤ c && c ≤ 90 then some (c.toNat - 55)
  else none

/-- the base that base 0 stands for, and the digits -/
def radix : Bytes → ℕ × Bytes
  | 48 :: x :: d :: s =>
    if (x == 120 || x == 88) && (digit d).any (· < 16) then (16, d :: s) else (8, 48 :: x :: d :: s)
  | 48 :: s => (8, 48 :: s)
  | s => (10, s)

/-- the value of the digits at the front -/
def value (r : ℕ × Bytes) : ℕ :=
  ((r.2.map fun c => (digit c).filter (· < r.1)).takeWhile Option.isSome).foldl (fun a d => a * r.1 + d.getD 0) 0

/-- behind the white space and the sign -/
def unsigned (s : Bytes) : Bytes := if s.head? = some 45 ∨ s.head? = some 43 then s.tail else s

/-- strtoul(s, NULL, 0); `none` is ULONG_MAX with ERANGE -/
def strtoul (s : Bytes) : Option ℕ :=
  let s := s.dropWhile isspace
  let v := value (radix (unsigned s))
  if v ≥ 2 ^ 64 then none
  else some (if s.head? = some 45 then (2 ^ 64 - v) % 2 ^ 64 else v)

/-- the number at the front of a text, in base 10 -/
def number (s : Bytes) : ℤ :=
  let s := s.dropWhile isspace
  let v := value (10, unsigned s)
  if s.head? = some 45 then -v else v

def LONG_MAX : ℤ := 2 ^ 63 - 1

def LONG_MIN : ℤ := -2 ^ 63

/-- strtol(s, NULL, 10), and whether errno is ERANGE -/
def strtol (s : Bytes) : ℤ × Bool :=
  if LONG_MAX < number s then (LONG_MAX, true)
  else if number s < LONG_MIN then (LONG_MIN, true)
  else (number s, false)

/-- a value of a 16-bit signed integer after a conversion -/
def toInt16 (v : ℤ) : ℤ := (v + 2 ^ 15) % 2 ^ 16 - 2 ^ 15

theorem toInt16_of_lt {v : ℤ} (h0 : 0 ≤ v) (h1 : v < 2 ^ 15) : toInt16 v = v := by
  unfold toInt16
  omega

/-! ## Digits -/

/-- the number that decimal digits spell -/
def spelled (ds : Bytes) : ℕ := ds.foldl (fun n c => 10 * n + (c.toNat - 48)) 0

theorem digit_of_isdigit {c : UInt8} (h : isdigit c = true) : digit c = some (c.toNat - 48) ∧ c.toNat - 48 < 10 := by
  have hc := h
  simp only [isdigit, Bool.and_eq_true, decide_eq_true_eq, UInt8.le_iff_toNat_le] at hc
  have hhigh : c.toNat ≤ 57 := hc.2
  exact ⟨if_pos h, by omega⟩

/-- decimal digits up to the first character that is none -/
theorem value_digits (ds rest : Bytes) (hds : ∀ c ∈ ds, isdigit c = true)
    (hrest : ∀ c ∈ rest.head?, (digit c).filter (· < 10) = none) : value (10, ds ++ rest) = spelled ds := by
  have htake : (((ds ++ rest).map fun c => (digit c).filter (· < 10)).takeWhile Option.isSome) =
      ds.map fun c => some (c.toNat - 48) := by
    induction ds with
    | nil =>
      cases rest with
      | nil => rfl
      | cons c rest => simp [hrest c rfl]
    | cons c ds ih =>
      obtain ⟨hd, hlt⟩ := digit_of_isdigit (hds c List.mem_cons_self)
      have hsome : (digit c).filter (· < 10) = some (c.toNat - 48) := by simp [hd, hlt]
      rw [List.cons_append, List.map_cons, List.map_cons, List.takeWhile_cons, hsome]
      exact congrArg _ (ih fun d hd => hds d (List.mem_cons_of_mem c hd))
  rw [value, htake, spelled, List.foldl_map]
  refine congrArg (fun f => List.foldl f 0 ds) ?_
  funext n c
  rw [Option.getD_some, Nat.mul_comm]

theorem spelled_append (ds es : Bytes) : spelled (ds ++ es) = spelled ds * 10 ^ es.length + spelled es := by
  induction es using List.reverseRecOn with
  | nil => simp [spelled]
  | append_singleton es c ih =>
    have hstep : ∀ s : Bytes, spelled (s ++ [c]) = 10 * spelled s + (c.toNat - 48) := fun s => by simp [spelled]
    rw [← List.append_assoc, hstep, hstep, ih, List.length_append, List.length_singleton, pow_succ]
    ring

theorem spelled_lt {ds : Bytes} (hds : ∀ c ∈ ds, isdigit c = true) : spelled ds < 10 ^ ds.length := by
  induction ds using List.reverseRecOn with
  | nil => simp [spelled]
  | append_singleton ds c ih =>
    have hc := (digit_of_isdigit (hds c (by simp))).2
    have hlt := ih fun d hd => hds d (List.mem_append_left _ hd)
    have hone : spelled [c] = c.toNat - 48 := by simp [spelled]
    rw [spelled_append, hone, List.length_append, List.length_singleton, pow_one, pow_succ]
    omega

/-- digits whose first is no zero -/
theorem le_spelled {c : UInt8} (ds : Bytes) (hc : isdigit c = true) (h48 : c ≠ 48) :
    10 ^ ds.length ≤ spelled (c :: ds) := by
  have hpos : 1 ≤ c.toNat - 48 := by
    simp only [isdigit, Bool.and_eq_true, decide_eq_true_eq, UInt8.le_iff_toNat_le] at hc
    have hlow : 48 ≤ c.toNat := hc.1
    have hne : c.toNat ≠ 48 := fun h => h48 (UInt8.toNat_inj.1 h)
    omega
  have hone : spelled [c] = c.toNat - 48 := by simp [spelled]
  rw [← List.singleton_append, spelled_append, hone]
  calc 10 ^ ds.length = 1 * 10 ^ ds.length := (Nat.one_mul _).symm
    _ ≤ (c.toNat - 48) * 10 ^ ds.length := Nat.mul_le_mul_right _ hpos
    _ ≤ (c.toNat - 48) * 10 ^ ds.length + spelled ds := Nat.le_add_right _ _

/-- k digits mean less than the k-th power of the base -/
theorem value_lt {base : ℕ} (hbase : 0 < base) (s : Bytes) : value (base, s) < base ^ s.length := by
  have hfold : ∀ l : List (Option ℕ), (∀ d ∈ l, d.getD 0 < base) →
      l.foldl (fun a d => a * base + d.getD 0) 0 < base ^ l.length := by
    intro l
    induction l using List.reverseRecOn with
    | nil => simp
    | append_singleton l d ih =>
      intro hl
      have hd := hl d (by simp)
      have hlt := ih fun e he => hl e (List.mem_append_left _ he)
      rw [List.foldl_append, List.length_append, List.length_singleton, pow_succ]
      calc l.foldl (fun a d => a * base + d.getD 0) 0 * base + d.getD 0
          < l.foldl (fun a d => a * base + d.getD 0) 0 * base + base := Nat.add_lt_add_left hd _
        _ = (l.foldl (fun a d => a * base + d.getD 0) 0 + 1) * base := by ring
        _ ≤ base ^ l.length * base := Nat.mul_le_mul_right _ hlt
  have hdigits := hfold ((s.map fun c => (digit c).filter (· < base)).takeWhile Option.isSome) ?_
  · have hlen := (List.takeWhile_prefix Option.isSome (l := s.map fun c => (digit c).filter (· < base))).length_le
    rw [List.length_map] at hlen
    exact hdigits.trans_le (Nat.pow_le_pow_right hbase hlen)
  · intro d hd
    obtain ⟨c, -, rfl⟩ := List.mem_map.1 ((List.takeWhile_prefix _).subset hd)
    cases hc : (digit c).filter (· < base) with
    | none => exact hbase
    | some n => simpa using (Option.filter_eq_some_iff.1 hc).2

theorem radix_le (s : Bytes) : 0 < (radix s).1 ∧ (radix s).1 ≤ 16 ∧ (radix s).2.length ≤ s.length := by
  unfold radix
  split
  · split_ifs <;> simp
  · simp
  · simp

/-- a short text is in range -/
theorem strtoul_short {s : Bytes} (h : s.length < 16) : ∃ n, strtoul s = some n := by
  have hdrop := (List.dropWhile_suffix isspace (l := s)).length_le
  have huns : (unsigned (s.dropWhile isspace)).length ≤ s.length := by
    rw [unsigned]
    split_ifs
    · rw [List.length_tail]
      omega
    · exact hdrop
  obtain ⟨hpos, hle, hlen⟩ := radix_le (unsigned (s.dropWhile isspace))
  have hlt : value (radix (unsigned (s.dropWhile isspace))) < 2 ^ 64 :=
    calc value (radix (unsigned (s.dropWhile isspace)))
        < (radix (unsigned (s.dropWhile isspace))).1 ^ (radix (unsigned (s.dropWhile isspace))).2.length :=
          value_lt hpos _
      _ ≤ 16 ^ (radix (unsigned (s.dropWhile isspace))).2.length := Nat.pow_le_pow_left hle _
      _ ≤ 16 ^ 16 := Nat.pow_le_pow_right (by norm_num) (by omega)
      _ = 2 ^ 64 := by norm_num
  rw [strtoul, if_neg (by omega)]
  exact ⟨_, rfl⟩

/-! ## Numerals -/

theorem isdigit_front {c : UInt8} (h : isdigit c = true) : isspace c = false ∧ c ≠ 45 ∧ c ≠ 43 := by
  have hall : ∀ c : UInt8, isdigit c = true → isspace c = false ∧ c ≠ 45 ∧ c ≠ 43 := forall_byte (by decide +kernel)
  exact hall c h

/-- digits at the front: neither white space nor a sign is skipped -/
theorem front_digit {c : UInt8} {s : Bytes} (hc : isdigit c = true) :
    (c :: s).dropWhile isspace = c :: s ∧ unsigned (c :: s) = c :: s ∧ (c :: s).head? ≠ some 45 := by
  obtain ⟨hspace, hminus, hplus⟩ := isdigit_front hc
  refine ⟨?_, ?_, by simpa using hminus⟩
  · rw [List.dropWhile_cons, hspace]
    rfl
  · rw [unsigned, if_neg (by simp [hminus, hplus])]

/-- a zero in front means base 8 or 16 -/
theorem radix_digit {c : UInt8} {s : Bytes} (h48 : c ≠ 48) : radix (c :: s) = (10, c :: s) := by
  unfold radix
  split
  · rename_i h
    exact absurd (List.cons.inj h).1 h48
  · rename_i h
    exact absurd (List.cons.inj h).1 h48
  · rfl

/-- **A numeral without leading zeros**, whatever is no digit behind it: it is read as it is spelled. -/
theorem strtoul_numeral {c : UInt8} {ds : Bytes} (rest : Bytes) (hds : ∀ d ∈ c :: ds, isdigit d = true) (h48 : c ≠ 48)
    (hrest : ∀ d ∈ rest.head?, (digit d).filter (· < 10) = none) (hlt : spelled (c :: ds) < 2 ^ 64) :
    strtoul (c :: ds ++ rest) = some (spelled (c :: ds)) := by
  obtain ⟨hdrop, huns, hhead⟩ := front_digit (s := ds ++ rest) (hds c List.mem_cons_self)
  have hval : value (radix (unsigned (c :: (ds ++ rest)))) = spelled (c :: ds) := by
    rw [huns, radix_digit h48]
    exact value_digits _ _ hds hrest
  simp only [strtoul, List.cons_append, hdrop, hval]
  rw [if_neg (by omega), if_neg hhead]

/-- the whole text is white space, a sign or none, and digits, which together mean n -/
def IsNumeral (s : Bytes) (n : ℤ) : Prop :=
  ∃ ws sign ds, s = ws ++ (sign ++ ds) ∧ (∀ c ∈ ws, isspace c = true) ∧ ds ≠ [] ∧ (∀ c ∈ ds, isdigit c = true) ∧
    ((sign = [] ∨ sign = [43]) ∧ n = spelled ds ∨ sign = [45] ∧ n = -spelled ds)

theorem number_numeral {s : Bytes} {n : ℤ} (h : IsNumeral s n) : number s = n := by
  obtain ⟨ws, sign, ds, rfl, hws, hne, hds, hsign⟩ := h
  obtain ⟨c, ds, rfl⟩ := List.exists_cons_of_ne_nil hne
  obtain ⟨hdrop, huns, hhead⟩ := front_digit (s := ds) (hds c List.mem_cons_self)
  have hval : value (10, c :: ds) = spelled (c :: ds) := by
    have := value_digits _ [] hds (by simp)
    rwa [List.append_nil] at this
  simp only [number, List.dropWhile_append_of_pos hws]
  rcases hsign with ⟨rfl | rfl, rfl⟩ | ⟨rfl, rfl⟩
  · rw [List.nil_append, hdrop, huns, if_neg hhead, hval]
  · have hplus : ([43] ++ c :: ds).dropWhile isspace = 43 :: c :: ds := rfl
    have htail : unsigned (43 :: c :: ds) = c :: ds := rfl
    rw [hplus, htail, if_neg (by simp), hval]
  · have hminus : ([45] ++ c :: ds).dropWhile isspace = 45 :: c :: ds := rfl
    have htail : unsigned (45 :: c :: ds) = c :: ds := rfl
    rw [hminus, htail, if_pos List.head?_cons, hval]

end AufsUtil.Strtol
