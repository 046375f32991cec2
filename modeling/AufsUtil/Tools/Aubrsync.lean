/-
Whiteouts in aubrsync (`aubrsync`, MoveWh): a whiteout d1/../dk/.wh.X is copied unless the destination has the file
d1/../dk/X that it hides.

The name of the hidden file is made by sed(1): `s/^.wh.//`, and if nothing was replaced `s:/.wh.:/:`. The dots of the
prefix match any character there, and the first place that fits is taken.

- `sed_first_name`, `sed_later_name`: what the script does with a path, by its first name that has "wh" in the second
  and third place. The whiteout itself is one.
- `hides_name_iff`: the script gives the hidden name, and the whiteout is copied exactly if the destination does not
  have it, if and only if no directory of the path has "wh" there.

What the model keeps: the two commands, with the branch between them, over the matcher of `Lib.Regex` (bytes, as
in the C locale); the names that find(1) prints. read and echo pass on names without newlines, backslashes and
outer blanks as they are.
-/
import Mathlib.Tactic
import Mathlib.Data.List.DropRight
import AufsUtil.Lib.Regex

namespace AufsUtil.Aubrsync

open AufsUtil.CStr AufsUtil.Regex

/-- ".wh." -/
def AUFS_WH_PFX : Bytes := [46, 119, 104, 46]

/-- ".wh..wh." -/
def AUFS_WH_PFX2 : Bytes := AUFS_WH_PFX ++ AUFS_WH_PFX

/-! ## MoveWh -/

/-- the script: t ends it if the first command has replaced something -/
def sed_wh (wh : Bytes) : Bytes :=
  match subst (.seq .bol (bre AUFS_WH_PFX)) [] wh with
  | some f => f
  | none => (subst (bre (47 :: AUFS_WH_PFX)) [47] wh).getD wh

/-- the last name of a path -/
def basename (path : Bytes) : Bytes := path.rtakeWhile (· ≠ 47)

/-- `-name .wh.\* ! -name .wh..wh.\*` -/
def is_wh (path : Bytes) : Bool :=
  AUFS_WH_PFX.isPrefixOf (basename path) && !AUFS_WH_PFX2.isPrefixOf (basename path)

/-- the names that are given to rsync(1); `dst` says what exists on the destination, paths is what find(1) meets -/
def MoveWh (dst : Bytes → Bool) (paths : List Bytes) : List Bytes :=
  (paths.filter is_wh).filter fun wh => !dst (sed_wh wh)

/-! ## The script -/

/-- the directories of a path, each with its slash -/
def dirs (ds : List Bytes) : Bytes := ds.flatMap (· ++ [47])

@[simp] theorem dirs_nil : dirs [] = [] := rfl

@[simp] theorem dirs_cons (d : Bytes) (ds : List Bytes) : dirs (d :: ds) = d ++ 47 :: dirs ds := by simp [dirs]

@[simp] theorem dirs_append (ds es : List Bytes) : dirs (ds ++ es) = dirs ds ++ dirs es := by simp [dirs]

/-- "wh" in the second and third place -/
def LooksWh (d : Bytes) : Prop := d[1]? = some 119 ∧ d[2]? = some 104

instance (d : Bytes) : Decidable (LooksWh d) := inferInstanceAs (Decidable (d[1]? = some 119 ∧ d[2]? = some 104))

/-- a name of a directory -/
def IsName (d : Bytes) : Prop := d ≠ [] ∧ (47 : UInt8) ∉ d

theorem fits_name {d : Bytes} (h : IsName d) (t : Bytes) : fits AUFS_WH_PFX (d ++ 47 :: t) = true ↔ LooksWh d := by
  obtain ⟨hne, h47⟩ := h
  match d with
  | [] => exact absurd rfl hne
  | [a] => simp [fits, AUFS_WH_PFX, LooksWh]
  | [a, b] => simp [fits, AUFS_WH_PFX, LooksWh]
  | [a, b, c] => simp [fits, AUFS_WH_PFX, LooksWh, eq_comm (a := b), eq_comm (a := c)]
  | a :: b :: c :: e :: d => simp [fits, AUFS_WH_PFX, LooksWh, eq_comm (a := b), eq_comm (a := c)]

theorem fits_slash (w : Bytes) (c : UInt8) (t : Bytes) : fits (47 :: w) (c :: t) = (decide (c = 47) && fits w t) := by
  by_cases hc : c = 47
  · simp [fits, hc]
  · have hne : (47 : UInt8) ≠ c := fun h => hc h.symm
    simp [fits, hc, hne]

/-- inside of the directories the second command finds names that look like a whiteout, but for the first one -/
theorem fits_inside {ds : List Bytes} (hds : ∀ d ∈ ds, IsName d) (t : Bytes) : ∀ q, q + 1 < (dirs ds).length →
    fits (47 :: AUFS_WH_PFX) ((dirs ds ++ t).drop q) = true → ∃ d ∈ ds.tail, LooksWh d := by
  induction ds with
  | nil => exact fun q hq => absurd hq (Nat.not_lt_zero _)
  | cons d ds ih =>
    intro q hq hfits
    have hd := hds d List.mem_cons_self
    have hrest := ih fun e he => hds e (List.mem_cons_of_mem d he)
    rw [dirs_cons, List.length_append, List.length_cons] at hq
    rw [dirs_cons, List.append_assoc, List.cons_append] at hfits
    rcases Nat.lt_trichotomy q d.length with hlt | rfl | hgt
    · -- no slash there
      rw [List.drop_append_of_le_length hlt.le, List.drop_eq_getElem_cons hlt, List.cons_append, fits_slash,
        Bool.and_eq_true, decide_eq_true_eq] at hfits
      exact absurd (hfits.1 ▸ List.getElem_mem hlt) hd.2
    · rw [List.drop_left, fits_slash, decide_eq_true rfl, Bool.true_and] at hfits
      cases ds with
      | nil =>
        rw [dirs_nil, List.length_nil] at hq
        omega
      | cons e es =>
        rw [dirs_cons, List.append_assoc, List.cons_append, fits_name (hds e (by simp))] at hfits
        exact ⟨e, List.mem_cons_self, hfits⟩
    · obtain ⟨k, rfl⟩ : ∃ k, q = d.length + (k + 1) := ⟨q - d.length - 1, by omega⟩
      rw [List.drop_append, List.drop_of_length_le (by omega), List.nil_append, Nat.add_sub_cancel_left,
        List.drop_succ_cons] at hfits
      obtain ⟨e, he, hwh⟩ := hrest k (by omega) hfits
      exact ⟨e, List.mem_of_mem_tail he, hwh⟩

theorem fits_later {as : List Bytes} (bs : List Bytes) {d : Bytes} (has : as ≠ []) (hd : IsName d) (hwh : LooksWh d)
    (t : Bytes) :
    (dirs as).length - 1 + 1 < (dirs (as ++ d :: bs)).length ∧
      fits (47 :: AUFS_WH_PFX) ((dirs (as ++ d :: bs) ++ t).drop ((dirs as).length - 1)) = true := by
  obtain ⟨cs, c, rfl⟩ := (List.eq_nil_or_concat' as).resolve_left has
  have hlen : (dirs (cs ++ [c])).length - 1 = (dirs cs ++ c).length := by simp
  have hsplit : dirs (cs ++ [c] ++ d :: bs) ++ t = (dirs cs ++ c) ++ 47 :: (d ++ 47 :: (dirs bs ++ t)) := by simp
  refine ⟨?_, ?_⟩
  · rw [hlen]
    simp
    omega
  · rw [hlen, hsplit, List.drop_left, fits_slash, (fits_name hd _).2 hwh]
    rfl

/-- four bytes are cut out at t -/
def cut (t : ℕ) (s : Bytes) : Bytes := s.take t ++ s.drop (t + 4)

/-- the path of a whiteout -/
def whiteout (ds : List Bytes) (x : Bytes) : Bytes := dirs ds ++ (AUFS_WH_PFX ++ x)

theorem dirs_le_whiteout (ds : List Bytes) (x : Bytes) : (dirs ds).length ≤ (whiteout ds x).length := by
  rw [whiteout, List.length_append]
  exact Nat.le_add_right _ _

/-- the first command finds the first name, if it looks like a whiteout -/
theorem sed_first_name {s : Bytes} (h : fits AUFS_WH_PFX s = true) : sed_wh s = cut 0 s := by
  have hone := subst_first (b := []) (ends_bol_bre s AUFS_WH_PFX) (Nat.zero_le s.length) (by simp [h])
    fun j hj => absurd hj (Nat.not_lt_zero j)
  rw [sed_wh, hone]
  rfl

/-- else the second one finds the first slash in front of such a name -/
theorem sed_later_name {s : Bytes} {q : ℕ} (h : fits AUFS_WH_PFX s = false) (hq : s[q]? = some 47)
    (hfits : fits (47 :: AUFS_WH_PFX) (s.drop q) = true)
    (hfirst : ∀ j < q, fits (47 :: AUFS_WH_PFX) (s.drop j) = false) : sed_wh s = cut (q + 1) s := by
  have hone := subst_none (b := []) (ends_bol_bre s AUFS_WH_PFX) fun j => by simp [h]
  have hlt := (List.getElem?_eq_some_iff.1 hq).1
  have htwo := subst_first (b := [47]) (ends_bre s (47 :: AUFS_WH_PFX)) hlt.le hfits hfirst
  rw [sed_wh, hone]
  dsimp only
  rw [htwo, Option.getD_some, cut, List.take_add_one, hq]
  rfl

/-- what is cut out before the whiteout leaves another name -/
theorem cut_before {ds : List Bytes} {x : Bytes} {t : ℕ} (ht : t < (dirs ds).length) :
    cut t (whiteout ds x) ≠ dirs ds ++ x := by
  obtain ⟨es, e, rfl⟩ : ∃ es e, ds = es ++ [e] := by
    refine (List.eq_nil_or_concat' ds).resolve_left ?_
    rintro rfl
    exact absurd ht (Nat.not_lt_zero t)
  have hlen : (dirs (es ++ [e])).length = (dirs es ++ e).length + 1 := by simp; omega
  intro h
  -- the byte in front of the whiteout is a slash, and would become a dot
  have hslash : (dirs (es ++ [e]) ++ x)[(dirs es ++ e).length]? = some 47 := by
    have hsplit : dirs (es ++ [e]) ++ x = (dirs es ++ e) ++ 47 :: x := by simp
    rw [hsplit, List.getElem?_append_right le_rfl, Nat.sub_self]
    rfl
  have hdot : (cut t (whiteout (es ++ [e]) x))[(dirs es ++ e).length]? = some 46 := by
    have hsplit : whiteout (es ++ [e]) x = (dirs es ++ e ++ [47, 46, 119, 104]) ++ 46 :: x := by
      simp [whiteout, AUFS_WH_PFX]
    have hwhole : (dirs es ++ e ++ [47, 46, 119, 104]).length = (dirs es ++ e).length + 4 :=
      List.length_append
    rw [cut, List.getElem?_append_right (by rw [List.length_take]; omega), List.length_take, List.getElem?_drop, hsplit,
      Nat.min_eq_left (by rw [List.length_append]; omega),
      show t + 4 + ((dirs es ++ e).length - t) = (dirs es ++ e ++ [47, 46, 119, 104]).length by omega,
      List.getElem?_append_right le_rfl, Nat.sub_self]
    rfl
  rw [h, hslash] at hdot
  exact absurd (Option.some.inj hdot) (by decide)

/-- at the whiteout itself nothing else is lost -/
theorem cut_whiteout (ds : List Bytes) (x : Bytes) : cut (dirs ds).length (whiteout ds x) = dirs ds ++ x := by
  rw [cut, whiteout, List.take_left, List.drop_append]
  simp [AUFS_WH_PFX]

/-! ## The hidden name -/

section Path

variable {ds : List Bytes} {x : Bytes} (hds : ∀ d ∈ ds, IsName d)

include hds

/-- a directory that looks like a whiteout is taken for one -/
theorem sed_wh_ne (h : ∃ d ∈ ds, LooksWh d) : sed_wh (whiteout ds x) ≠ dirs ds ++ x := by
  obtain ⟨d, hd, hwh⟩ := h
  obtain ⟨e, es, rfl⟩ := List.exists_cons_of_ne_nil (List.ne_nil_of_mem hd)
  have he := hds e List.mem_cons_self
  have hfront : fits AUFS_WH_PFX (whiteout (e :: es) x) = true ↔ LooksWh e := by
    rw [whiteout, dirs_cons, List.append_assoc, List.cons_append, fits_name he]
  by_cases hfirst : LooksWh e
  · rw [sed_first_name (hfront.2 hfirst)]
    exact cut_before (by simp)
  · have hes : d ∈ es := by
      rcases List.mem_cons.1 hd with rfl | hes
      · exact absurd hwh hfirst
      · exact hes
    obtain ⟨as, bs, rfl⟩ := List.append_of_mem hes
    -- the first place that fits is not behind the one in front of d
    have hlater := fits_later bs (List.cons_ne_nil e as) (hds d hd) hwh (AUFS_WH_PFX ++ x)
    have hex : ∃ q, fits (47 :: AUFS_WH_PFX) ((whiteout (e :: (as ++ d :: bs)) x).drop q) = true := ⟨_, hlater.2⟩
    have hle := Nat.find_min' hex hlater.2
    have hlt : Nat.find hex + 1 < (dirs (e :: (as ++ d :: bs))).length := lt_of_le_of_lt (Nat.succ_le_succ hle) hlater.1
    have hinside := (Nat.lt_of_succ_lt hlt).trans_le (dirs_le_whiteout (e :: (as ++ d :: bs)) x)
    have hslash : (whiteout (e :: (as ++ d :: bs)) x)[Nat.find hex]? = some 47 := by
      have hspec := Nat.find_spec hex
      rw [List.drop_eq_getElem_cons hinside, fits_slash, Bool.and_eq_true, decide_eq_true_eq] at hspec
      rw [List.getElem?_eq_getElem hinside, hspec.1]
    rw [sed_later_name (Bool.eq_false_iff.2 (hfront.not.2 hfirst)) hslash (Nat.find_spec hex) fun j hj =>
      Bool.eq_false_iff.2 (Nat.find_min hex hj)]
    exact cut_before hlt

theorem sed_wh_eq (h : ∀ d ∈ ds, ¬ LooksWh d) : sed_wh (whiteout ds x) = dirs ds ++ x := by
  cases ds with
  | nil => exact sed_first_name (by simp [whiteout, fits, AUFS_WH_PFX])
  | cons e es =>
    have hfront : fits AUFS_WH_PFX (whiteout (e :: es) x) = false := by
      rw [whiteout, dirs_cons, List.append_assoc, List.cons_append, Bool.eq_false_iff, Ne,
        fits_name (hds e List.mem_cons_self)]
      exact h e List.mem_cons_self
    obtain ⟨cs, c, hcs⟩ := (List.eq_nil_or_concat' (e :: es)).resolve_left (List.cons_ne_nil e es)
    have hsplit : whiteout (e :: es) x = (dirs cs ++ c) ++ 47 :: (AUFS_WH_PFX ++ x) := by simp [whiteout, hcs]
    have hlen : (dirs (e :: es)).length = (dirs cs ++ c).length + 1 := by rw [hcs]; simp; omega
    have hhere : fits (47 :: AUFS_WH_PFX) ((whiteout (e :: es) x).drop (dirs cs ++ c).length) = true := by
      rw [hsplit, List.drop_left, fits_slash]
      simp [fits, AUFS_WH_PFX]
    rw [sed_later_name (q := (dirs cs ++ c).length) hfront ?_ hhere ?_, ← hlen]
    · exact cut_whiteout (e :: es) x
    · rw [hsplit, List.getElem?_append_right le_rfl, Nat.sub_self]
      rfl
    · intro j hj
      rw [Bool.eq_false_iff]
      intro hfits
      obtain ⟨d, hd, hwh⟩ := fits_inside hds _ j (by omega) hfits
      exact h d (List.mem_of_mem_tail hd) hwh

end Path

/-- The script gives the hidden name, and the whiteout is copied unless the destination has it. -/
def HidesName (ds : List Bytes) (x : Bytes) : Prop :=
  sed_wh (whiteout ds x) = dirs ds ++ x ∧
    ∀ dst, MoveWh dst [whiteout ds x] = if dst (dirs ds ++ x) then [] else [whiteout ds x]

theorem basename_whiteout (ds : List Bytes) {x : Bytes} (hx : (47 : UInt8) ∉ x) :
    basename (whiteout ds x) = AUFS_WH_PFX ++ x := by
  have hdirs : (dirs ds).reverse.takeWhile (· ≠ 47) = [] := by
    rcases List.eq_nil_or_concat' ds with rfl | ⟨es, e, rfl⟩ <;> simp
  rw [basename, List.rtakeWhile, whiteout, List.reverse_append, List.takeWhile_append_of_pos, hdirs, List.append_nil,
    List.reverse_reverse]
  intro c hc
  rw [List.mem_reverse, List.mem_append] at hc
  have hne : c ≠ 47 := by
    rintro rfl
    rcases hc with hc | hc
    · exact absurd hc (by decide)
    · exact hx hc
  simpa using hne

/-- **A whiteout is mapped to the name it hides** exactly if no directory of its path looks like a whiteout. -/
theorem hides_name_iff (ds : List Bytes) (x : Bytes) (hds : ∀ d ∈ ds, IsName d) (hx : (47 : UInt8) ∉ x)
    (hpfx : ¬ AUFS_WH_PFX <+: x) : HidesName ds x ↔ ∀ d ∈ ds, ¬ LooksWh d := by
  constructor
  · rintro ⟨hname, -⟩ d hd hwh
    exact sed_wh_ne hds ⟨d, hd, hwh⟩ hname
  · intro h
    have hname := sed_wh_eq (x := x) hds h
    refine ⟨hname, fun dst => ?_⟩
    have hwh : is_wh (whiteout ds x) = true := by
      have hno : AUFS_WH_PFX.isPrefixOf x = false := Bool.eq_false_iff.2 (List.isPrefixOf_iff_prefix.not.2 hpfx)
      rw [is_wh, basename_whiteout ds hx]
      simpa [AUFS_WH_PFX, AUFS_WH_PFX2] using hno
    rw [MoveWh, List.filter_cons_of_pos hwh, List.filter_nil, List.filter_cons, hname]
    cases dst (dirs ds ++ x) <;> rfl

/-- "bin/.wh.ls" -/
theorem hides_name_bin : HidesName [[98, 105, 110]] [108, 115] :=
  (hides_name_iff _ _ (by simp [IsName]) (by decide) (by decide)).2 (by decide)

/-- "awhb/.wh.x" becomes "/.wh.x": the start of the directory is taken for the whiteout -/
theorem hides_other_name : ¬ HidesName [[97, 119, 104, 98]] [120] := by
  rintro ⟨hname, -⟩
  exact absurd hname (by decide)

end AufsUtil.Aubrsync
