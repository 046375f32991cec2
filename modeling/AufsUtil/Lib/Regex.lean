/-
Extended regular expressions over bytes, as regexec(3) searches for them.

`Matches` says that an expression matches a string between two indices, `ends` computes where a match that starts at an
index may end, `regexec` looks for a match anywhere. The anchors match the ends of the string (REG_NEWLINE is not
modelled), a bracket matches one byte that is in a list, or is not.

- `ends_iff`: the matcher is sound and complete; a star needs no more turns than the string has bytes.
- `regexec_iff`, `regexec_bol`: a search, and one for an anchored expression.
- `matches_word`, `matches_oneOf`, `matches_skip`: words, alternatives of words, and a star of a bracket.
- `subst_first`, `subst_none`: the s command of sed(1), for an expression whose matches all have one length; `ends_bre`:
  such is a text that is put into an expression.
-/
import Mathlib.Tactic
import AufsUtil.Lib.CStr

namespace AufsUtil.Regex

open AufsUtil.CStr Relation

inductive Re where
  | eps
  /-- one byte that is in the list, or, with `neg`, is not -/
  | bracket (neg : Bool) (cs : Bytes)
  | seq (a b : Re)
  | alt (a b : Re)
  | star (a : Re)
  | bol
  | eol
deriving DecidableEq, Repr

/-- a match of the bytes from i on and before j -/
def Matches (s : Bytes) : Re → ℕ → ℕ → Prop
  | .eps, i, j => i = j
  | .bracket neg cs, i, j => j = i + 1 ∧ ∃ c, s[i]? = some c ∧ cs.contains c ≠ neg
  | .seq a b, i, j => ∃ k, Matches s a i k ∧ Matches s b k j
  | .alt a b, i, j => Matches s a i j ∨ Matches s b i j
  | .star a, i, j => ReflTransGen (Matches s a) i j
  | .bol, i, j => i = 0 ∧ i = j
  | .eol, i, j => i = s.length ∧ i = j

/-- where at most n steps lead -/
def iter (f : ℕ → List ℕ) : ℕ → ℕ → List ℕ
  | 0, i => [i]
  | n + 1, i => i :: (f i).flatMap (iter f n)

/-- where a match from i on may end -/
def ends (s : Bytes) : Re → ℕ → List ℕ
  | .eps, i => [i]
  | .bracket neg cs, i =>
    match s[i]? with
    | none => []
    | some c => if cs.contains c != neg then [i + 1] else []
  | .seq a b, i => (ends s a i).flatMap (ends s b)
  | .alt a b, i => ends s a i ++ ends s b i
  | .star a, i => iter (ends s a) (s.length - i) i
  | .bol, i => if i = 0 then [i] else []
  | .eol, i => if i = s.length then [i] else []

/-- is there a match anywhere -/
def regexec (r : Re) (s : Bytes) : Bool := (List.range (s.length + 1)).any fun i => !(ends s r i).isEmpty

/-! ## The matcher -/

theorem matches_bounds {s : Bytes} {r : Re} {i j : ℕ} (h : Matches s r i j) (hi : i ≤ s.length) :
    i ≤ j ∧ j ≤ s.length := by
  induction r generalizing i j with
  | eps => exact ⟨le_of_eq h, h ▸ hi⟩
  | bracket neg cs =>
    obtain ⟨rfl, c, hc, -⟩ := h
    have := (List.getElem?_eq_some_iff.1 hc).1
    omega
  | seq a b iha ihb =>
    obtain ⟨k, ha, hb⟩ := h
    obtain ⟨hik, hk⟩ := iha ha hi
    obtain ⟨hkj, hj⟩ := ihb hb hk
    exact ⟨hik.trans hkj, hj⟩
  | alt a b iha ihb =>
    rcases h with h | h
    · exact iha h hi
    · exact ihb h hi
  | star a ih =>
    have hstar : ReflTransGen (Matches s a) i j := h
    induction hstar with
    | refl => exact ⟨le_rfl, hi⟩
    | @tail k l hik hkl ihk =>
      obtain ⟨h1, h2⟩ := ihk hik
      obtain ⟨h3, h4⟩ := ih hkl h2
      exact ⟨h1.trans h3, h4⟩
  | bol => exact ⟨le_of_eq h.2, h.2 ▸ hi⟩
  | eol => exact ⟨le_of_eq h.2, h.2 ▸ hi⟩

theorem iter_sound {f : ℕ → List ℕ} {n i j : ℕ} (h : j ∈ iter f n i) : ReflTransGen (fun i j => j ∈ f i) i j := by
  induction n generalizing i with
  | zero => rw [List.mem_singleton.1 h]
  | succ n ih =>
    rcases List.mem_cons.1 h with rfl | h
    · rfl
    · obtain ⟨k, hk, hj⟩ := List.mem_flatMap.1 h
      exact ReflTransGen.head hk (ih hj)

/-- steps that stay where they are can be left out; the others go up, at most to m -/
theorem iter_complete {f : ℕ → List ℕ} {m : ℕ} (hf : ∀ i j, i ≤ m → j ∈ f i → i ≤ j ∧ j ≤ m) {i j : ℕ}
    (h : ReflTransGen (fun i j => j ∈ f i) i j) {n : ℕ} (hi : i ≤ m) (hn : m - i ≤ n) : j ∈ iter f n i := by
  induction h using ReflTransGen.head_induction_on generalizing n with
  | refl =>
    cases n with
    | zero => exact List.mem_singleton.2 rfl
    | succ n => exact List.mem_cons_self
  | @head i k hik _ ih =>
    obtain ⟨hle, hk⟩ := hf i k hi hik
    rcases hle.eq_or_lt with rfl | hlt
    · exact ih hi hn
    · obtain ⟨n, rfl⟩ : ∃ l, n = l + 1 := ⟨n - 1, by omega⟩
      exact List.mem_cons_of_mem i (List.mem_flatMap.2 ⟨k, hik, ih hk (by omega)⟩)

/-- a chain of steps below m, by a relation that follows from the first one there -/
theorem chain_mono {R S : ℕ → ℕ → Prop} {m : ℕ} (h : ∀ i j, i ≤ m → R i j → S i j ∧ j ≤ m) {i j : ℕ} (hi : i ≤ m)
    (hij : ReflTransGen R i j) : ReflTransGen S i j := by
  have hchain : ReflTransGen S i j ∧ j ≤ m := by
    induction hij with
    | refl => exact ⟨.refl, hi⟩
    | tail _ hkl ih =>
      obtain ⟨hstep, hle⟩ := h _ _ ih.2 hkl
      exact ⟨ih.1.tail hstep, hle⟩
  exact hchain.1

/-- **The matcher is sound and complete.** -/
theorem ends_iff {s : Bytes} {r : Re} {i j : ℕ} (hi : i ≤ s.length) : j ∈ ends s r i ↔ Matches s r i j := by
  induction r generalizing i j with
  | eps => simp [ends, Matches, eq_comm]
  | bracket neg cs =>
    rw [ends, Matches]
    cases s[i]? with
    | none => simp
    | some c =>
      by_cases hc : cs.contains c = neg
      · simp [← hc]
      · simp only [if_pos (bne_iff_ne.2 hc), List.mem_singleton]
        exact (and_iff_left ⟨c, rfl, hc⟩).symm
  | seq a b iha ihb =>
    rw [ends, Matches, List.mem_flatMap]
    refine exists_congr fun k => ?_
    rw [iha hi]
    exact and_congr_right fun h => ihb (matches_bounds h hi).2
  | alt a b iha ihb => rw [ends, Matches, List.mem_append, iha hi, ihb hi]
  | star a ih =>
    rw [ends, Matches]
    have hsound : ∀ k l, k ≤ s.length → l ∈ ends s a k → Matches s a k l ∧ l ≤ s.length := fun k l hk hl =>
      ⟨(ih hk).1 hl, (matches_bounds ((ih hk).1 hl) hk).2⟩
    have hcomplete : ∀ k l, k ≤ s.length → Matches s a k l → l ∈ ends s a k ∧ l ≤ s.length := fun k l hk hl =>
      ⟨(ih hk).2 hl, (matches_bounds hl hk).2⟩
    constructor
    · intro h
      exact chain_mono hsound hi (iter_sound h)
    · intro h
      refine iter_complete (m := s.length) ?_ (chain_mono hcomplete hi h) hi le_rfl
      intro k l hk hl
      exact matches_bounds ((ih hk).1 hl) hk
  | bol =>
    rw [ends, Matches]
    split_ifs with h0 <;> simp [h0, eq_comm]
  | eol =>
    rw [ends, Matches]
    split_ifs with h0 <;> simp [h0, eq_comm]

theorem regexec_iff (r : Re) (s : Bytes) : regexec r s = true ↔ ∃ i j, i ≤ s.length ∧ Matches s r i j := by
  rw [regexec, List.any_eq_true]
  constructor
  · intro ⟨i, hi, h⟩
    rw [List.mem_range] at hi
    obtain ⟨j, hj⟩ := List.exists_mem_of_ne_nil (ends s r i) (by simpa using h)
    exact ⟨i, j, by omega, (ends_iff (by omega)).1 hj⟩
  · intro ⟨i, j, hi, h⟩
    refine ⟨i, List.mem_range.2 (by omega), ?_⟩
    have hne := List.ne_nil_of_mem ((ends_iff hi).2 h)
    simpa using hne

/-- an anchored expression matches from the start -/
theorem regexec_bol (r : Re) (s : Bytes) : regexec (.seq .bol r) s = true ↔ ∃ j, Matches s r 0 j := by
  rw [regexec_iff]
  constructor
  · intro ⟨i, j, _, k, ⟨h0, hk⟩, h⟩
    subst h0
    subst hk
    exact ⟨j, h⟩
  · intro ⟨j, h⟩
    exact ⟨0, j, Nat.zero_le _, 0, ⟨rfl, rfl⟩, h⟩

/-! ## Words -/

def word : Bytes → Re
  | [] => .eps
  | c :: w => .seq (.bracket false [c]) (word w)

/-- one of the words, the last one w -/
def oneOf (ws : List Bytes) (w : Bytes) : Re := ws.foldr (fun x r => .alt (word x) r) (word w)

theorem matches_word {s w : Bytes} {i j : ℕ} : Matches s (word w) i j ↔ j = i + w.length ∧ w <+: s.drop i := by
  induction w generalizing i with
  | nil => simp [word, Matches, eq_comm]
  | cons c w ih =>
    rw [word, Matches]
    constructor
    · intro ⟨k, ⟨hk, d, hd, hc⟩, h⟩
      subst hk
      obtain ⟨hj, hw⟩ := ih.1 h
      have hdc : d = c := by simpa using hc
      subst hdc
      obtain ⟨hi, hd⟩ := List.getElem?_eq_some_iff.1 hd
      rw [List.drop_eq_getElem_cons hi, hd]
      exact ⟨by rw [hj, List.length_cons]; omega, List.cons_prefix_cons.2 ⟨rfl, hw⟩⟩
    · intro ⟨hj, hw⟩
      have hi : i < s.length := by
        have := hw.length_le
        rw [List.length_cons, List.length_drop] at this
        omega
      rw [List.drop_eq_getElem_cons hi, List.cons_prefix_cons] at hw
      refine ⟨i + 1, ⟨rfl, c, ?_, by simp⟩, ih.2 ⟨by rw [hj, List.length_cons]; omega, hw.2⟩⟩
      rw [List.getElem?_eq_getElem hi, hw.1]

theorem matches_oneOf {s : Bytes} {ws : List Bytes} {w : Bytes} {i j : ℕ} :
    Matches s (oneOf ws w) i j ↔ ∃ x ∈ ws ++ [w], j = i + x.length ∧ x <+: s.drop i := by
  induction ws with
  | nil => simp [oneOf, matches_word]
  | cons x ws ih =>
    have hcons : Matches s (oneOf (x :: ws) w) i j ↔ Matches s (word x) i j ∨ Matches s (oneOf ws w) i j := Iff.rfl
    rw [hcons, ih, matches_word, List.cons_append, List.exists_mem_cons_iff]

/-- a star of a bracket skips bytes of it -/
theorem matches_skip {s : Bytes} {neg : Bool} {cs : Bytes} {i j : ℕ} :
    Matches s (.star (.bracket neg cs)) i j ↔
      i ≤ j ∧ ∀ k, i ≤ k → k < j → ∃ c, s[k]? = some c ∧ cs.contains c ≠ neg := by
  rw [Matches]
  constructor
  · intro h
    induction h with
    | refl => exact ⟨le_rfl, fun k h1 h2 => by omega⟩
    | tail _ hkl ih =>
      obtain ⟨rfl, hc⟩ := hkl
      refine ⟨by omega, fun k h1 h2 => ?_⟩
      rcases Nat.lt_succ_iff_lt_or_eq.1 h2 with h2 | rfl
      · exact ih.2 k h1 h2
      · exact hc
  · intro ⟨hij, h⟩
    obtain ⟨d, rfl⟩ := Nat.exists_eq_add_of_le hij
    clear hij
    induction d with
    | zero => exact .refl
    | succ d ih =>
      exact (ih fun k h1 h2 => h k h1 (by omega)).tail ⟨rfl, h (i + d) (by omega) (by omega)⟩

/-! ## Substitution -/

/-- the leftmost match, and the longest of those that start there -/
def first_match (r : Re) (s : Bytes) : Option (ℕ × ℕ) :=
  (List.range (s.length + 1)).findSome? fun i => (ends s r i).max?.map fun j => (i, j)

/-- the s command of sed(1) without g; `none` when nothing matches -/
def subst (r : Re) (b s : Bytes) : Option Bytes := (first_match r s).map fun m => s.take m.1 ++ b ++ s.drop m.2

/-- a match starts where P holds, and takes n bytes -/
theorem subst_first {r : Re} {s b : Bytes} {P : ℕ → Bool} {n i : ℕ}
    (hends : ∀ j, ends s r j = if P j then [j + n] else []) (hi : i ≤ s.length) (hP : P i = true)
    (hfirst : ∀ j < i, P j = false) : subst r b s = some (s.take i ++ b ++ s.drop (i + n)) := by
  have hmatch : first_match r s = some (i, i + n) := by
    obtain ⟨k, hk⟩ := Nat.exists_eq_add_of_le hi
    rw [first_match, List.findSome?_eq_some_iff]
    refine ⟨List.range i, i, (List.range k).map fun j => i + (j + 1), ?_, ?_, ?_⟩
    · rw [hk, Nat.add_assoc, List.range_add, List.range_succ_eq_map, List.map_cons, List.map_map]
      rfl
    · rw [hends, if_pos hP]
      rfl
    · intro j hj
      rw [hends, hfirst j (List.mem_range.1 hj)]
      rfl
  rw [subst, hmatch]
  rfl

theorem subst_none {r : Re} {s b : Bytes} {P : ℕ → Bool} {n : ℕ} (hends : ∀ j, ends s r j = if P j then [j + n] else [])
    (hno : ∀ j, P j = false) : subst r b s = none := by
  have hmatch : first_match r s = none := by
    rw [first_match, List.findSome?_eq_none_iff]
    intro j _
    rw [hends, hno j]
    rfl
  rw [subst, hmatch]
  rfl

/-! ## Texts put into an expression -/

/-- the expression that a text without other special characters is: its dots match any byte -/
def bre (w : Bytes) : Re := w.foldr (fun c r => .seq (if c = 46 then .bracket true [] else .bracket false [c]) r) .eps

/-- the text t begins as the expression says -/
def fits : Bytes → Bytes → Bool
  | [], _ => true
  | _ :: _, [] => false
  | c :: w, d :: t => (c == 46 || c == d) && fits w t

theorem ends_bre (s w : Bytes) : ∀ i, ends s (bre w) i = if fits w (s.drop i) then [i + w.length] else [] := by
  induction w with
  | nil => exact fun i => rfl
  | cons c w ih =>
    intro i
    have hcons : bre (c :: w) = .seq (if c = 46 then .bracket true [] else .bracket false [c]) (bre w) := rfl
    rw [hcons, ends]
    rcases lt_or_ge i s.length with hi | hi
    · have hone : ends s (if c = 46 then .bracket true [] else .bracket false [c]) i =
          if c == 46 || c == s[i] then [i + 1] else [] := by
        by_cases hc : c = 46
        · simp [hc, ends, List.getElem?_eq_getElem hi]
        · simp [hc, ends, List.getElem?_eq_getElem hi, eq_comm (a := c)]
      rw [hone, List.drop_eq_getElem_cons hi, fits]
      by_cases hd : (c == 46 || c == s[i]) = true
      · rw [if_pos hd, hd, List.flatMap_cons, ih, List.flatMap_nil, List.append_nil, Bool.true_and, List.length_cons,
          Nat.add_assoc, Nat.add_comm 1]
      · rw [if_neg hd, Bool.eq_false_iff.2 hd]
        rfl
    · have hone : ends s (if c = 46 then .bracket true [] else .bracket false [c]) i = [] := by
        split_ifs <;> simp [ends, List.getElem?_eq_none hi]
      rw [hone, List.drop_of_length_le hi]
      rfl

/-- the same at the start only -/
theorem ends_bol_bre (s w : Bytes) (i : ℕ) :
    ends s (.seq .bol (bre w)) i = if decide (i = 0) && fits w s then [i + w.length] else [] := by
  rw [ends, ends]
  by_cases h0 : i = 0
  · subst h0
    simp [ends_bre]
  · simp [h0]

end AufsUtil.Regex
