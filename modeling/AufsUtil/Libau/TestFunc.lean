/-
Which functions of libau are enabled (`libau/libau.c`, libau_test_func): the variable LIBAU is empty, is "all", or names
the function.

The list is not split. The loop looks for the name with strstr(3) and accepts an occurrence that ends where a field
ends; it never looks at what stands in front of it.

- `search_iff`: the loop ends, and says whether some occurrence of the name ends where a field ends.
- `test_func_iff`: what libau_test_func answers.
- `selects_by_name_iff`: it selects by whole names exactly if no field ends with the name and is longer, unless
  the variable selects the function anyway.
- `pathconf_by_fpathconf`: "fpathconf" selects pathconf(3) too; `pathconf_second_test`: so the second one of the two
  tests that both functions make never matters.

What the model keeps of C: the search by pointer, one character on after each hit. Bytes compare as in the C locale.
-/
import Mathlib.Tactic
import AufsUtil.Lib.CStr
import AufsUtil.Lib.Substring

namespace AufsUtil.Libau

open AufsUtil.CStr AufsUtil.Substring

/-- tolower(3) -/
def tolower (c : UInt8) : UInt8 := if 65 ≤ c && c ≤ 90 then c + 32 else c

/-- strcasecmp(3) -/
def strcasecmp (a b : Bytes) : Ordering := strcmp (a.map tolower) (b.map tolower)

/-- "all" -/
def all : Bytes := [97, 108, 108]

def pathconf : Bytes := [112, 97, 116, 104, 99, 111, 110, 102]

def fpathconf : Bytes := 102 :: pathconf

/-- `!e[l] || e[l] == ':'` -/
def field_end (e : Bytes) (l : ℕ) : Bool :=
  match e[l]? with
  | none => true
  | some c => c == 0 || c == 58

/-- the loop; `none` when the fuel is used up -/
def search (sym : Bytes) : ℕ → Bytes → Option Bool
  | 0, _ => none
  | fuel + 1, e =>
    match strstr sym e with
    | none => some false
    | some e => if field_end e sym.length then some true else search sym fuel e.tail

/-- env is the value of LIBAU -/
def libau_test_func (fuel : ℕ) (env : Option Bytes) (sym : Bytes) : Option Bool :=
  match env with
  | none => some false
  | some e => if e = [] ∨ strcasecmp e all = .eq then some true else search sym fuel e

/-! ## The search -/

/-- an occurrence of the name that ends where a field ends -/
def Ends (sym e : Bytes) : Prop := ∃ x y, e = x ++ sym ++ y ∧ field_end y 0 = true

theorem field_end_append (a y : Bytes) : field_end (a ++ y) a.length = field_end y 0 := by
  rw [field_end, field_end, List.getElem?_append_right le_rfl, Nat.sub_self]

/-- an occurrence that does not end a field can be left behind -/
theorem ends_tail {sym e f : Bytes} (hsym : sym ≠ []) (h : strstr sym e = some f) :
    Ends sym e ↔ field_end f sym.length = true ∨ Ends sym f.tail := by
  obtain ⟨x, he, ⟨y, rfl⟩, hfirst⟩ := strstr_first h
  rw [field_end_append]
  constructor
  · rintro ⟨x', y', he', hy'⟩
    have hle := hfirst x' y' he'
    obtain ⟨d, hd⟩ : ∃ d, sym ++ y = d ++ sym ++ y' ∧ x' = x ++ d := by
      rw [he, List.append_assoc x', List.append_eq_append_iff] at he'
      rcases he' with ⟨d, hx', hd⟩ | ⟨d, hx, hd⟩
      · exact ⟨d, by rw [List.append_assoc, hd], hx'⟩
      · obtain rfl : d = [] := by
          have := congrArg List.length hx
          rw [List.length_append] at this
          exact List.length_eq_zero_iff.1 (by omega)
        exact ⟨[], by simpa using hd.symm, by simpa using hx.symm⟩
    cases d with
    | nil =>
      left
      have hyy : y = y' := by simpa using hd.1
      exact hyy ▸ hy'
    | cons c d => exact Or.inr ⟨d, y', by rw [hd.1]; rfl, hy'⟩
  · rintro (hy | ⟨x', y', htail, hy'⟩)
    · exact ⟨x, y, by rw [he, List.append_assoc], hy⟩
    · obtain ⟨c, sym', rfl⟩ := List.exists_cons_of_ne_nil hsym
      rw [List.cons_append, List.tail_cons] at htail
      refine ⟨x ++ c :: x', y', ?_, hy'⟩
      rw [he, List.cons_append, htail]
      simp

/-- **The loop ends**, and its answer is whether an occurrence ends where a field does. -/
theorem search_iff {sym : Bytes} (hsym : sym ≠ []) :
    ∀ (fuel : ℕ) (e : Bytes), e.length < fuel → ∃ b, search sym fuel e = some b ∧ (b = true ↔ Ends sym e) := by
  intro fuel
  induction fuel with
  | zero => exact fun e h => absurd h (Nat.not_lt_zero _)
  | succ fuel ih =>
    intro e hlen
    rw [search]
    cases h : strstr sym e with
    | none =>
      refine ⟨false, rfl, ?_⟩
      simp only [Bool.false_eq_true, false_iff]
      rintro ⟨x, y, he, -⟩
      exact strstr_eq_none.1 h ⟨x, y, he.symm⟩
    | some f =>
      rw [ends_tail hsym h]
      by_cases hend : field_end f sym.length = true
      · exact ⟨true, if_pos hend, by simp [hend]⟩
      · obtain ⟨x, rfl, hf, -⟩ := strstr_first h
        have hpos := hf.length_le
        have hsymlen := List.length_pos_iff.2 hsym
        rw [List.length_append] at hlen
        obtain ⟨b, hb, hiff⟩ := ih f.tail (by rw [List.length_tail]; omega)
        exact ⟨b, (if_neg hend).trans hb, by simp [hend, hiff]⟩

/-! ## What it selects -/

/-- a field of the list has the name as its end -/
def EndsField (sym e : Bytes) : Prop := ∃ f ∈ e.splitOn 58, sym <:+ f

theorem ends_iff {sym e : Bytes} (hsym : (58 : UInt8) ∉ sym) (he : (0 : UInt8) ∉ e) : Ends sym e ↔ EndsField sym e := by
  rw [EndsField, field_ends_iff hsym]
  refine exists_congr fun x => exists_congr fun y => and_congr_right fun hxy => ?_
  have hy : (0 : UInt8) ∉ y := fun h => he (hxy ▸ List.mem_append_right _ h)
  cases y with
  | nil => simp [field_end]
  | cons c y =>
    have hc : c ≠ 0 := fun h => hy (h ▸ List.mem_cons_self)
    simp [field_end, hc]

/-- the variable is empty, or "all" in any case -/
def SelectsAll (e : Bytes) : Prop := e = [] ∨ strcasecmp e all = .eq

instance (e : Bytes) : Decidable (SelectsAll e) := inferInstanceAs (Decidable (e = [] ∨ strcasecmp e all = .eq))

/-- **What libau_test_func answers.** The last case is that a field ends with the name. -/
theorem test_func_iff (sym : Bytes) (hne : sym ≠ []) (hsym : (58 : UInt8) ∉ sym) {env : Option Bytes}
    (henv : ∀ e ∈ env, (0 : UInt8) ∉ e) {fuel : ℕ} (hfuel : ∀ e ∈ env, e.length < fuel) :
    ∃ b, libau_test_func fuel env sym = some b ∧ (b = true ↔ ∃ e ∈ env, SelectsAll e ∨ EndsField sym e) := by
  cases env with
  | none => exact ⟨false, rfl, by simp⟩
  | some e =>
    rw [libau_test_func]
    by_cases hall : SelectsAll e
    · exact ⟨true, if_pos hall, by simp [hall]⟩
    · obtain ⟨b, hb, hiff⟩ := search_iff hne fuel e (hfuel e rfl)
      refine ⟨b, (if_neg hall).trans hb, ?_⟩
      rw [hiff, ends_iff hsym (henv e rfl)]
      simp [hall]

/-- the variable is set and empty, "all", or has the name as a field -/
def Selected (env : Option Bytes) (sym : Bytes) : Prop := ∃ e ∈ env, SelectsAll e ∨ sym ∈ e.splitOn 58

/-- the search ends, and answers whether the name is selected -/
def SelectsByName (env : Option Bytes) (sym : Bytes) : Prop :=
  ∀ fuel, (∀ e ∈ env, e.length < fuel) →
    ∃ b, libau_test_func fuel env sym = some b ∧ (b = true ↔ Selected env sym)

/-- **LIBAU selects by whole names** exactly if a field that is longer than the name and ends with it stands there only
in a variable that selects the function anyway. -/
theorem selects_by_name_iff (env : Option Bytes) (sym : Bytes) (hne : sym ≠ []) (hsym : (58 : UInt8) ∉ sym)
    (henv : ∀ e ∈ env, (0 : UInt8) ∉ e) :
    SelectsByName env sym ↔
      ∀ e ∈ env, (∃ f ∈ e.splitOn 58, sym <:+ f ∧ f ≠ sym) →
        e = [] ∨ strcasecmp e all = .eq ∨ sym ∈ e.splitOn 58 := by
  have hends : ∀ e, sym ∈ e.splitOn 58 → EndsField sym e := fun e h => ⟨sym, h, List.suffix_rfl⟩
  constructor
  · rintro h e he ⟨f, hf, hsuf, -⟩
    have hfuel : ∀ e' ∈ env, e'.length < e.length + 1 := by
      intro e' he'
      rw [Option.mem_unique he' he]
      exact Nat.lt_succ_self _
    obtain ⟨b, hb, hiff⟩ := h _ hfuel
    obtain ⟨b', hb', hiff'⟩ := test_func_iff _ hne hsym henv hfuel
    obtain rfl : b = b' := Option.some.inj (hb.symm.trans hb')
    obtain ⟨e', he', hsel⟩ := hiff.1 (hiff'.2 ⟨e, he, Or.inr ⟨f, hf, hsuf⟩⟩)
    rw [Option.mem_unique he' he] at hsel
    exact or_assoc.1 hsel
  · intro h fuel hfuel
    obtain ⟨b, hb, hiff⟩ := test_func_iff _ hne hsym henv hfuel
    refine ⟨b, hb, hiff.trans (exists_congr fun e => and_congr_right fun he => ?_)⟩
    refine ⟨?_, fun hsel => hsel.imp_right (hends e)⟩
    rintro (hall | ⟨f, hf, hsuf⟩)
    · exact Or.inl hall
    · by_cases hfs : f = sym
      · exact Or.inr (hfs ▸ hf)
      · exact or_assoc.2 (h e he ⟨f, hf, hsuf, hfs⟩)

/-- both names stand in the list -/
theorem selects_by_name_both : SelectsByName (some (fpathconf ++ 58 :: pathconf)) pathconf :=
  (selects_by_name_iff _ _ (by decide) (by decide) (by simp [fpathconf, pathconf])).2 fun e he _ =>
    Or.inr (Or.inr (Option.mem_some_iff.1 he ▸ by decide))

/-- "fpathconf" selects pathconf(3) too -/
theorem pathconf_by_fpathconf : ¬ SelectsByName (some fpathconf) pathconf := by
  intro h
  obtain ⟨b, hb, hiff⟩ := h 10 (by simp [fpathconf, pathconf])
  obtain rfl : b = true := Option.some.inj (hb.symm.trans (by decide))
  have hno : ¬ (SelectsAll fpathconf ∨ pathconf ∈ fpathconf.splitOn 58) := by decide
  simpa [Selected, hno] using hiff.1 rfl

/-! ## pathconf(3) -/

/-- the test of pathconf(3), and of fpathconf(3) -/
def pathconf_enabled (fuel : ℕ) (env : Option Bytes) : Option Bool :=
  (libau_test_func fuel env pathconf).bind fun t => if t then some true else libau_test_func fuel env fpathconf

/-- what selects a name selects every end of the name -/
theorem test_func_suffix {sym sym' : Bytes} (hne : sym ≠ []) (hsuf : sym <:+ sym') (hsym : (58 : UInt8) ∉ sym')
    {env : Option Bytes} (henv : ∀ e ∈ env, (0 : UInt8) ∉ e) {fuel : ℕ} (hfuel : ∀ e ∈ env, e.length < fuel)
    (h : libau_test_func fuel env sym' = some true) : libau_test_func fuel env sym = some true := by
  have hne' : sym' ≠ [] := fun h0 => hne (List.suffix_nil.1 (h0 ▸ hsuf))
  obtain ⟨b, hb, hiff⟩ := test_func_iff _ hne (fun h0 => hsym (hsuf.subset h0)) henv hfuel
  obtain ⟨b', hb', hiff'⟩ := test_func_iff _ hne' hsym henv hfuel
  obtain rfl : true = b' := Option.some.inj (h.symm.trans hb')
  obtain ⟨e, he, hsel⟩ := hiff'.1 rfl
  rw [hb, hiff.2 ⟨e, he, hsel.imp_right fun ⟨f, hf, hend⟩ => ⟨f, hf, hsuf.trans hend⟩⟩]

/-- **The second test is never needed.** -/
theorem pathconf_second_test {env : Option Bytes} (henv : ∀ e ∈ env, (0 : UInt8) ∉ e) {fuel : ℕ}
    (hfuel : ∀ e ∈ env, e.length < fuel) : pathconf_enabled fuel env = libau_test_func fuel env pathconf := by
  obtain ⟨b, hb, -⟩ := test_func_iff pathconf (by decide) (by decide) henv hfuel
  obtain ⟨b', hb', -⟩ := test_func_iff fpathconf (by decide) (by decide) henv hfuel
  rw [pathconf_enabled, hb, Option.bind_some]
  cases b with
  | true => rfl
  | false =>
    rw [if_neg Bool.false_ne_true, hb']
    cases b' with
    | false => rfl
    | true =>
      have := test_func_suffix (by decide) (by decide : pathconf <:+ fpathconf) (by decide) henv hfuel hb'
      rw [hb] at this
      exact this.symm

end AufsUtil.Libau
