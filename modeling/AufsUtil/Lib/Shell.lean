/-
Reading lines in a shell: read with two variables and without -r, and the words that xargs(1) makes of its input.

- `take_line`: a line of read. A backslash protects the character behind it, and joins the next line to this one.
- `two_fields`: a line is split at blanks that are not protected; the second variable gets all the rest, without the
  blanks around it.
- `words`: xargs(1) on an input without quotes and backslashes.

- `reads_lines`: the lines of an input without backslashes are read one by one.
- `two_fields_unspaced`, `two_fields_spaced`: a word and the words behind it are read back, with one space between the
  two or with two.
- `words_unspaced`: words with a space between them are read back.
-/
import Mathlib.Tactic
import Mathlib.Data.List.DropRight
import AufsUtil.Lib.CStr

namespace AufsUtil.Shell

open AufsUtil.CStr

/-! ## read -/

/-- IFS -/
def blank (c : UInt8) : Bool := c == 32 || c == 9 || c == 10

/-- the characters of a line up to its newline, with the mark of those behind a backslash, and the rest of the input;
`none` if the input ends in front of a newline. The flag says that a backslash came before. -/
def take_line : Bool → Bytes → Option (List (UInt8 × Bool) × Bytes)
  | _, [] => none
  | true, c :: s => if c = 10 then take_line false s else (take_line false s).map fun r => ((c, true) :: r.1, r.2)
  | false, c :: s =>
    if c = 10 then some ([], s)
    else if c = 92 then take_line true s
    else (take_line false s).map fun r => ((c, false) :: r.1, r.2)

/-- a character that separates -/
def separates (m : UInt8 × Bool) : Bool := blank m.1 && !m.2

/-- `read a b`: what the two variables get of a line -/
def two_fields (line : List (UInt8 × Bool)) : Bytes × Bytes :=
  let line := line.dropWhile separates
  let rest := (line.dropWhile fun m => !separates m).dropWhile separates
  ((line.takeWhile fun m => !separates m).map Prod.fst, (rest.rdropWhile separates).map Prod.fst)

/-- `while read a b`: what is read of an input, in at most so many lines -/
def reads : ℕ → Bytes → List (Bytes × Bytes)
  | 0, _ => []
  | fuel + 1, s =>
    match take_line false s with
    | none => []
    | some (line, s) => two_fields line :: reads fuel s

/-- a text of lines -/
def text (ls : List Bytes) : Bytes := ls.flatMap (· ++ [10])

/-- the characters of a line in which there is no backslash -/
def unmarked (l : Bytes) : List (UInt8 × Bool) := l.map (·, false)

theorem map_unmarked (l : Bytes) : (unmarked l).map Prod.fst = l := by
  rw [unmarked, List.map_map]
  exact List.map_id l

/-- no newline and no backslash -/
def Literal (l : Bytes) : Prop := (10 : UInt8) ∉ l ∧ (92 : UInt8) ∉ l

instance (l : Bytes) : Decidable (Literal l) := inferInstanceAs (Decidable (_ ∧ _))

theorem take_line_literal {l : Bytes} (h : Literal l) (s : Bytes) :
    take_line false (l ++ 10 :: s) = some (unmarked l, s) := by
  induction l with
  | nil => rfl
  | cons c l ih =>
    obtain ⟨h10, h92⟩ := h
    rw [List.mem_cons, not_or] at h10 h92
    rw [List.cons_append, take_line, if_neg (Ne.symm h10.1), if_neg (Ne.symm h92.1), ih ⟨h10.2, h92.2⟩]
    rfl

/-- **Lines without backslashes** are read one by one. -/
theorem reads_lines {ls : List Bytes} (h : ∀ l ∈ ls, Literal l) : ∀ fuel, ls.length ≤ fuel →
    reads fuel (text ls) = ls.map fun l => two_fields (unmarked l) := by
  induction ls with
  | nil =>
    intro fuel _
    cases fuel <;> rfl
  | cons l ls ih =>
    intro fuel hfuel
    obtain ⟨fuel, rfl⟩ : ∃ n, fuel = n + 1 := ⟨fuel - 1, by rw [List.length_cons] at hfuel; omega⟩
    have hsplit : text (l :: ls) = l ++ 10 :: text ls := by simp [text]
    rw [hsplit, reads, take_line_literal (h l List.mem_cons_self)]
    dsimp only
    rw [ih (fun m hm => h m (List.mem_cons_of_mem l hm)) fuel (Nat.le_of_succ_le_succ hfuel), List.map_cons]

/-! ## Words -/

/-- without blanks -/
structure Solid (w : Bytes) : Prop where
  ne_nil : w ≠ []
  blank : ∀ c ∈ w, blank c = false

/-- what is one word for read and for xargs(1) -/
structure Word (w : Bytes) : Prop extends Solid w where
  backslash : (92 : UInt8) ∉ w

instance (w : Bytes) : Decidable (Word w) :=
  decidable_of_iff (w ≠ [] ∧ (w.all fun c => !blank c) = true ∧ (92 : UInt8) ∉ w)
    ⟨fun h => ⟨⟨h.1, by simpa using h.2.1⟩, h.2.2⟩, fun h => ⟨h.ne_nil, by simpa using h.blank, h.backslash⟩⟩

theorem Word.literal {w : Bytes} (h : Word w) : Literal w :=
  ⟨fun h10 => absurd (h.blank 10 h10) (by decide), h.backslash⟩

theorem literal_append {l m : Bytes} (hl : Literal l) (hm : Literal m) : Literal (l ++ 32 :: m) := by
  constructor <;> simp only [List.mem_append, List.mem_cons, not_or]
  · exact ⟨hl.1, by decide, hm.1⟩
  · exact ⟨hl.2, by decide, hm.2⟩

theorem separates_word {w : Bytes} (h : Word w) : ∀ m ∈ unmarked w, separates m = false := by
  intro m hm
  obtain ⟨c, hc, rfl⟩ := List.mem_map.1 hm
  rw [separates, h.blank c hc]
  rfl

theorem dropWhile_word {w : Bytes} (h : Word w) (rest : List (UInt8 × Bool)) :
    (unmarked w ++ rest).dropWhile separates = unmarked w ++ rest := by
  obtain ⟨c, w', rfl⟩ := List.exists_cons_of_ne_nil h.ne_nil
  have hc := separates_word h (c, false) List.mem_cons_self
  exact List.dropWhile_cons_of_neg (by rw [hc]; exact Bool.false_ne_true)

/-- a word and something behind a blank: the first variable gets the word, the second the rest without outer blanks -/
theorem two_fields_word {w : Bytes} (h : Word w) (rest : Bytes) :
    two_fields (unmarked (w ++ 32 :: rest)) =
      (w, (((unmarked rest).dropWhile separates).rdropWhile separates).map Prod.fst) := by
  have hsplit : unmarked (w ++ 32 :: rest) = unmarked w ++ (32, false) :: unmarked rest := by simp [unmarked]
  have hword : ∀ m ∈ unmarked w, (!separates m) = true := fun m hm => by rw [separates_word h m hm]; rfl
  rw [hsplit, two_fields]
  simp only [dropWhile_word h, List.takeWhile_append_of_pos hword, List.dropWhile_append_of_pos hword]
  have hstop : (!separates (32, false)) = false := rfl
  have hskip : separates (32, false) = true := rfl
  rw [List.takeWhile_cons_of_neg (by simp [hstop]), List.dropWhile_cons_of_neg (by simp [hstop]),
    List.dropWhile_cons_of_pos hskip, List.append_nil, map_unmarked]

/-- the words of a text: what is between the blanks -/
def words (s : Bytes) : List Bytes := (s.splitOnP blank).filter (· ≠ [])

/-- words, each behind a space -/
def spaced (ws : List Bytes) : Bytes := ws.flatMap (32 :: ·)

@[simp] theorem spaced_nil : spaced [] = [] := rfl

@[simp] theorem spaced_cons (w : Bytes) (ws : List Bytes) : spaced (w :: ws) = 32 :: (w ++ spaced ws) := rfl

theorem literal_spaced {ws : List Bytes} (h : ∀ w ∈ ws, Word w) : Literal (spaced ws) := by
  induction ws with
  | nil => decide
  | cons w ws ih =>
    have hrest := ih fun v hv => h v (List.mem_cons_of_mem w hv)
    have hw := (h w List.mem_cons_self).literal
    constructor <;> simp only [spaced_cons, List.mem_append, List.mem_cons, not_or]
    · exact ⟨by decide, hw.1, hrest.1⟩
    · exact ⟨by decide, hw.2, hrest.2⟩

/-- words with a space between them -/
def unspaced (ws : List Bytes) : Bytes := (spaced ws).tail

theorem unspaced_cons (w : Bytes) (ws : List Bytes) : unspaced (w :: ws) = w ++ spaced ws := rfl

theorem words_solid {w : Bytes} (h : Solid w) {c : UInt8} (hc : blank c = true) (rest : Bytes) :
    words (w ++ c :: rest) = w :: words rest := by
  rw [words, List.splitOnP_append_cons_of_forall_mem h.blank c hc, List.filter_cons_of_pos (by simpa using h.ne_nil),
    words]

/-- **Words with a space between them**, and a newline behind them, are read back. -/
theorem words_unspaced {ws : List Bytes} (h : ∀ w ∈ ws, Solid w) : words (unspaced ws ++ [10]) = ws := by
  cases ws with
  | nil => decide
  | cons w ws =>
    rw [unspaced_cons]
    induction ws generalizing w with
    | nil =>
      rw [spaced_nil, List.append_nil, words_solid (h w List.mem_cons_self) rfl]
      rfl
    | cons v ws ih =>
      rw [spaced_cons, List.append_assoc, List.cons_append, words_solid (h w List.mem_cons_self) rfl]
      rw [ih v fun x hx => h x (List.mem_cons_of_mem w hx)]

/-- the last character of words with spaces between them is no blank -/
theorem unspaced_last {ws : List Bytes} (h : ∀ w ∈ ws, Solid w) (hne : unspaced ws ≠ []) :
    blank ((unspaced ws).getLast hne) = false := by
  cases ws with
  | nil => exact absurd rfl hne
  | cons w ws =>
    revert hne
    rw [unspaced_cons]
    induction ws generalizing w with
    | nil =>
      intro hne
      simp only [spaced_nil, List.append_nil]
      exact (h w List.mem_cons_self).blank _ (List.getLast_mem _)
    | cons v ws ih =>
      intro hne
      have hv : v ++ spaced ws ≠ [] := fun hnil =>
        (h v (List.mem_cons_of_mem w List.mem_cons_self)).ne_nil (List.append_eq_nil_iff.1 hnil).1
      have hlast := ih v (fun x hx => h x (List.mem_cons_of_mem w hx)) hv
      simp only [spaced_cons]
      rw [List.getLast_append_of_ne_nil _ (List.cons_ne_nil _ _), List.getLast_cons hv]
      exact hlast

theorem strip_unspaced {ws : List Bytes} (h : ∀ w ∈ ws, Word w) :
    ((unmarked (unspaced ws)).dropWhile separates).rdropWhile separates = unmarked (unspaced ws) := by
  cases ws with
  | nil => rfl
  | cons w ws =>
    have hdrop : (unmarked (unspaced (w :: ws))).dropWhile separates = unmarked (unspaced (w :: ws)) := by
      have hsplit : unmarked (unspaced (w :: ws)) = unmarked w ++ unmarked (spaced ws) := by
        simp [unspaced_cons, unmarked]
      rw [hsplit, dropWhile_word (h w List.mem_cons_self)]
    rw [hdrop, List.rdropWhile_eq_self_iff]
    intro hne
    have hlast := unspaced_last (fun v hv => (h v hv).toSolid) fun hnil => hne (by rw [hnil]; rfl)
    simp only [unmarked, List.getLast_map, separates, hlast, Bool.false_and, Bool.false_eq_true, not_false_eq_true]

/-- **A word and the words behind it**, as read takes them. -/
theorem two_fields_unspaced {w : Bytes} {ws : List Bytes} (hw : Word w) (h : ∀ v ∈ ws, Word v) :
    two_fields (unmarked (w ++ 32 :: unspaced ws)) = (w, unspaced ws) := by
  rw [two_fields_word hw, strip_unspaced h, map_unmarked]

/-- with one space more -/
theorem two_fields_spaced {w : Bytes} {ws : List Bytes} (hw : Word w) (h : ∀ v ∈ ws, Word v) :
    two_fields (unmarked (w ++ 32 :: spaced ws)) = (w, unspaced ws) := by
  cases ws with
  | nil => exact two_fields_unspaced hw h
  | cons v ws =>
    have hskip : (unmarked (spaced (v :: ws))).dropWhile separates =
        (unmarked (unspaced (v :: ws))).dropWhile separates := by
      have hsplit : unmarked (spaced (v :: ws)) = (32, false) :: unmarked (unspaced (v :: ws)) := rfl
      rw [hsplit, List.dropWhile_cons_of_pos rfl]
    rw [two_fields_word hw, hskip, strip_unspaced h, map_unmarked]

end AufsUtil.Shell
