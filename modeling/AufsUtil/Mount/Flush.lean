/-
When a remount flushes the pseudo-links: test_flush of `mount.aufs.c`, against `aufs.in.5`.

test_flush cuts the option string at its commas, in place, and looks at every field with one regular expression. The
manual says that the pseudo-links of memory are lost when a branch is added or deleted, when a writable branch becomes
readonly, and by the options ro and noplink (clean_plink); a branch is readonly with the permission ro or rr, which
attributes may follow.

What the model keeps of C:
- the copy of the string is a buffer of bytes with a NUL for every comma; the loop goes from one string to the next by
  strlen(3), as often as there were commas, and once more;
- the expression is the one that regcomp(3) gets, matched as in `Lib.Regex`.
strdup(3) and regcomp(3) are taken to succeed; else the program ends.

- `test_flush_fields`: the cutting and the loop come to one look at every field.
- `regexec_pat`: what the expression says of a field.
- `test_flush_iff`: exactly when test_flush agrees with the manual. It does not know rr, and it takes every permission
  that begins with ro for ro.
-/
import Mathlib.Tactic
import AufsUtil.Lib.CStr
import AufsUtil.Lib.Regex

namespace AufsUtil.Mount.Flush

open AufsUtil.CStr AufsUtil.Regex

/-! ## The function -/

def OPT_ADD : Bytes := [97, 100, 100]
def OPT_INS : Bytes := [105, 110, 115]
def OPT_APPEND : Bytes := [97, 112, 112, 101, 110, 100]
def OPT_PREPEND : Bytes := [112, 114, 101, 112, 101, 110, 100]
def OPT_DEL : Bytes := [100, 101, 108]
def OPT_MOD : Bytes := [109, 111, 100]
def OPT_IMOD : Bytes := [105, 109, 111, 100]
def OPT_NOPLINK : Bytes := [110, 111, 112, 108, 105, 110, 107]
def RO : Bytes := [114, 111]
def RR : Bytes := [114, 114]

/-- [:=] -/
def sep : Re := .bracket false [58, 61]

/-- ^((add|ins|append|prepend|del)[:=]|(mod|imod)[:=][^,]*=ro|(noplink|ro)$) -/
def pat : Re :=
  .seq .bol
    (.alt (.seq (oneOf [OPT_ADD, OPT_INS, OPT_APPEND, OPT_PREPEND] OPT_DEL) sep)
      (.alt (.seq (.seq (oneOf [OPT_MOD] OPT_IMOD) sep) (.seq (.star (.bracket true [44])) (word (61 :: RO))))
        (.seq (oneOf [OPT_NOPLINK] RO) .eol)))

/-- the copy of the string, with its terminator, when the commas have been overwritten -/
def cut (opts : Bytes) : Bytes := (opts.map fun c => if c = 44 then 0 else c) ++ [0]

/-- the second loop: i strings from index p on -/
def flush_loop (o : Bytes) : ℕ → ℕ → ℤ
  | 0, _ => 0
  | i + 1, p => if regexec pat (cstr o p) then 1 else flush_loop o i (p + (strlen o p + 1))

def test_flush (opts : Bytes) : ℤ := flush_loop (cut opts) (1 + opts.count 44) 0

/-! ## Fields -/

def fields (opts : Bytes) : List Bytes := opts.splitOn 44

theorem fields_nil : fields [] = [[]] := rfl

theorem fields_cons (c : UInt8) (s : Bytes) :
    fields (c :: s) = if c = 44 then [] :: fields s else (fields s).modifyHead (c :: ·) := by
  simp only [fields, List.splitOn, List.splitOnP_cons_eq_if_modifyHead, beq_iff_eq]

theorem fields_ne_nil (s : Bytes) : fields s ≠ [] := List.splitOnP_ne_nil _ s

/-- the overwritten copy is the fields, each with its NUL -/
theorem cut_eq (opts : Bytes) : cut opts = encode (fields opts) ∧ (fields opts).length = 1 + opts.count 44 := by
  induction opts with
  | nil => exact ⟨rfl, rfl⟩
  | cons c s ih =>
    obtain ⟨hcut, hlen⟩ := ih
    rw [fields_cons]
    by_cases hc : c = 44
    · rw [if_pos hc, encode_cons, ← hcut, List.length_cons, hlen, hc, List.count_cons_self]
      exact ⟨rfl, by omega⟩
    · rw [if_neg hc, List.length_modifyHead, hlen, List.count_cons_of_ne hc]
      obtain ⟨f, fs, hf⟩ := List.exists_cons_of_ne_nil (fields_ne_nil s)
      rw [hf, encode_cons] at hcut
      rw [hf, List.modifyHead_cons, encode_cons, List.cons_append, ← hcut]
      exact ⟨by simp [cut, hc], rfl⟩

/-- a field has no comma, and no NUL if the string has none -/
theorem field_clean {opts f : Bytes} (h : f ∈ fields opts) :
    (44 : UInt8) ∉ f ∧ ((0 : UInt8) ∉ opts → (0 : UInt8) ∉ f) := by
  induction opts generalizing f with
  | nil =>
    rw [fields_nil, List.mem_singleton] at h
    rw [h]
    exact ⟨List.not_mem_nil, fun _ => List.not_mem_nil⟩
  | cons c s ih =>
    rw [fields_cons] at h
    split_ifs at h with hc
    · rcases List.mem_cons.1 h with rfl | h
      · exact ⟨List.not_mem_nil, fun _ => List.not_mem_nil⟩
      · exact ⟨(ih h).1, fun h0 => (ih h).2 fun hs => h0 (List.mem_cons_of_mem c hs)⟩
    · obtain ⟨g, gs, hg⟩ := List.exists_cons_of_ne_nil (fields_ne_nil s)
      rw [hg, List.modifyHead_cons] at h
      rcases List.mem_cons.1 h with rfl | h
      · have hgf := ih (f := g) (by rw [hg]; exact List.mem_cons_self)
        refine ⟨fun h44 => ?_, fun h0 hf => ?_⟩
        · rcases List.mem_cons.1 h44 with h44 | h44
          · exact hc h44.symm
          · exact hgf.1 h44
        · rcases List.mem_cons.1 hf with hf | hf
          · exact h0 (hf ▸ List.mem_cons_self)
          · exact hgf.2 (fun hs => h0 (List.mem_cons_of_mem c hs)) hf
      · have hgf := ih (f := f) (by rw [hg]; exact List.mem_cons_of_mem g h)
        exact ⟨hgf.1, fun h0 => hgf.2 fun hs => h0 (List.mem_cons_of_mem c hs)⟩

/-- the loop looks at the strings behind ts -/
theorem flush_loop_encode (ts fs : List Bytes) (h : ∀ f ∈ fs, (0 : UInt8) ∉ f) :
    flush_loop (encode (ts ++ fs)) fs.length (encode ts).length = 1 ↔ ∃ f ∈ fs, regexec pat f = true := by
  induction fs generalizing ts with
  | nil => simp [flush_loop]
  | cons f fs ih =>
    have hf := h f List.mem_cons_self
    have hstr : cstr (encode (ts ++ f :: fs)) (encode ts).length = f := by
      have := cstr_encode ts f (encode fs) hf
      simpa using this
    have hnext : (encode ts).length + (strlen (encode (ts ++ f :: fs)) (encode ts).length + 1) =
        (encode (ts ++ [f])).length := by
      rw [strlen, hstr]
      simp
    rw [List.length_cons, flush_loop, hstr, hnext, List.append_cons, List.exists_mem_cons_iff]
    cases regexec pat f with
    | true => simp
    | false =>
      rw [if_neg Bool.false_ne_true, ih (ts ++ [f]) fun g hg => h g (List.mem_cons_of_mem f hg)]
      simp

theorem test_flush_fields (opts : Bytes) (h : (0 : UInt8) ∉ opts) :
    test_flush opts = 1 ↔ ∃ f ∈ fields opts, regexec pat f = true := by
  obtain ⟨hcut, hlen⟩ := cut_eq opts
  have hloop := flush_loop_encode [] (fields opts) fun f hf => (field_clean hf).2 h
  rwa [List.nil_append, ← hcut, hlen] at hloop

/-! ## What the expression says -/

/-- the field is one of the words, a separator, and rest -/
def Opens (ws : List Bytes) (f rest : Bytes) : Prop := ∃ w ∈ ws, ∃ c, (c = 58 ∨ c = 61) ∧ f = w ++ c :: rest

/-- mod or imod, with "=ro" behind -/
def EqRo (f : Bytes) : Prop := ∃ rest, Opens [OPT_MOD, OPT_IMOD] f rest ∧ 61 :: RO <:+: rest

theorem sep_contains (c : UInt8) : List.contains [58, 61] c ≠ false ↔ c = 58 ∨ c = 61 := by
  rw [ne_eq, Bool.not_eq_false, List.contains_iff_mem, List.mem_cons, List.mem_singleton]

theorem matches_opens {f : Bytes} {ws : List Bytes} {w : Bytes} {j : ℕ} :
    Matches f (.seq (oneOf ws w) sep) 0 j ↔ ∃ rest, Opens (ws ++ [w]) f rest ∧ f.drop j = rest ∧ j ≤ f.length := by
  rw [Matches]
  constructor
  · rintro ⟨k, hw, hj, c, hc, hsep⟩
    obtain ⟨x, hx, hk, hpre⟩ := matches_oneOf.1 hw
    rw [Nat.zero_add] at hk
    rw [List.drop_zero] at hpre
    obtain ⟨t, rfl⟩ := hpre
    rw [hk, List.getElem?_append_right le_rfl, Nat.sub_self] at hc
    cases t with
    | nil => cases hc
    | cons d rest =>
      have hdc : d = c := by simpa using hc
      subst hdc
      have hlen : j = (x ++ [d]).length := by rw [hj, hk, List.length_append, List.length_singleton]
      refine ⟨rest, ⟨x, hx, d, (sep_contains d).1 hsep, rfl⟩, ?_, ?_⟩
      · rw [List.append_cons, hlen, List.drop_left]
      · rw [hlen]
        simp
  · rintro ⟨rest, ⟨x, hx, c, hc, hf⟩, hrest, hj⟩
    have hlen : j = x.length + 1 := by
      have h1 := congrArg List.length hf
      have h2 := congrArg List.length hrest
      rw [List.length_append, List.length_cons] at h1
      rw [List.length_drop] at h2
      omega
    refine ⟨x.length, matches_oneOf.2 ⟨x, hx, by omega, ?_⟩, hlen, c, ?_, (sep_contains c).2 hc⟩
    · rw [hf, List.drop_zero]
      exact List.prefix_append x (c :: rest)
    · rw [hf, List.getElem?_append_right le_rfl, Nat.sub_self]
      rfl

/-- the word stands somewhere behind i -/
theorem matches_behind {f w : Bytes} (hf : (44 : UInt8) ∉ f) {i : ℕ} (hi : i ≤ f.length) :
    (∃ j, Matches f (.seq (.star (.bracket true [44])) (word w)) i j) ↔ w <:+: f.drop i := by
  constructor
  · intro ⟨j, k, hskip, hw⟩
    obtain ⟨hik, -⟩ := matches_skip.1 hskip
    obtain ⟨-, hpre⟩ := matches_word.1 hw
    obtain ⟨d, rfl⟩ := Nat.exists_eq_add_of_le hik
    rw [← List.drop_drop] at hpre
    exact hpre.isInfix.trans (List.drop_suffix d (f.drop i)).isInfix
  · intro ⟨a, b, hab⟩
    have hlen := congrArg List.length hab
    rw [List.length_append, List.length_append, List.length_drop] at hlen
    refine ⟨i + a.length + w.length, i + a.length, matches_skip.2 ⟨by omega, fun k _ hk => ?_⟩,
      matches_word.2 ⟨rfl, ?_⟩⟩
    · have hkf : k < f.length := by omega
      refine ⟨f[k], List.getElem?_eq_getElem hkf, ?_⟩
      have hne : f[k] ≠ 44 := fun h => hf (h ▸ List.getElem_mem hkf)
      simpa using hne
    · rw [← List.drop_drop, ← hab, List.append_assoc, List.drop_left]
      exact List.prefix_append w b

/-- a whole field that is one of two words -/
theorem matches_whole {f v w : Bytes} : (∃ j, Matches f (.seq (oneOf [v] w) .eol) 0 j) ↔ f = v ∨ f = w := by
  have hword : ∀ x : Bytes, (x.length = f.length ∧ x <+: f) ↔ f = x := by
    intro x
    constructor
    · intro ⟨hlen, hpre⟩
      exact (hpre.eq_of_length hlen).symm
    · intro h
      rw [h]
      exact ⟨rfl, List.prefix_refl x⟩
  rw [← hword v, ← hword w]
  constructor
  · intro ⟨j, k, hw, hk, _⟩
    obtain ⟨x, hx, hkx, hpre⟩ := matches_oneOf.1 hw
    rw [Nat.zero_add] at hkx
    rw [List.drop_zero] at hpre
    rcases List.mem_cons.1 hx with rfl | hx
    · exact Or.inl ⟨hkx.symm.trans hk, hpre⟩
    · rw [List.mem_singleton.1 hx] at hkx hpre
      exact Or.inr ⟨hkx.symm.trans hk, hpre⟩
  · intro h
    rcases h with ⟨hlen, hpre⟩ | ⟨hlen, hpre⟩
    · exact ⟨f.length, f.length, matches_oneOf.2 ⟨v, by simp, by omega, by simpa using hpre⟩, rfl, rfl⟩
    · exact ⟨f.length, f.length, matches_oneOf.2 ⟨w, by simp, by omega, by simpa using hpre⟩, rfl, rfl⟩

theorem Opens.suffix {ws : List Bytes} {f rest : Bytes} (h : Opens ws f rest) : rest <:+ f := by
  obtain ⟨w, -, c, -, hfw⟩ := h
  exact ⟨w ++ [c], by rw [hfw, List.append_assoc, List.singleton_append]⟩

/-- the part of the expression that stands for the first words and a separator -/
theorem matches_opening (f : Bytes) (ws : List Bytes) (w : Bytes) :
    (∃ j, Matches f (.seq (oneOf ws w) sep) 0 j) ↔ ∃ rest, Opens (ws ++ [w]) f rest := by
  constructor
  · intro ⟨j, h⟩
    obtain ⟨rest, ho, -⟩ := matches_opens.1 h
    exact ⟨rest, ho⟩
  · intro ⟨rest, ho⟩
    have hdrop := (List.suffix_iff_eq_drop.1 ho.suffix).symm
    exact ⟨f.length - rest.length, matches_opens.2 ⟨rest, ho, hdrop, Nat.sub_le _ _⟩⟩

/-- the part for mod and imod, with anything and then the word behind -/
theorem matches_opening_behind {f : Bytes} (hf : (44 : UInt8) ∉ f) (ws : List Bytes) (v w : Bytes) :
    (∃ j, Matches f (.seq (.seq (oneOf ws v) sep) (.seq (.star (.bracket true [44])) (word w))) 0 j) ↔
      ∃ rest, Opens (ws ++ [v]) f rest ∧ w <:+: rest := by
  constructor
  · intro ⟨j, k, ho, h⟩
    obtain ⟨rest, ho, hrest, hk⟩ := matches_opens.1 ho
    have hin := (matches_behind hf hk).1 ⟨j, h⟩
    rw [hrest] at hin
    exact ⟨rest, ho, hin⟩
  · intro ⟨rest, ho, hin⟩
    have hdrop := (List.suffix_iff_eq_drop.1 ho.suffix).symm
    have hk : f.length - rest.length ≤ f.length := Nat.sub_le _ _
    rw [← hdrop] at hin
    obtain ⟨j, h⟩ := (matches_behind hf hk).2 hin
    exact ⟨j, f.length - rest.length, matches_opens.2 ⟨rest, ho, hdrop, hk⟩, h⟩

/-- **What the expression says of a field.** -/
theorem regexec_pat {f : Bytes} (hf : (44 : UInt8) ∉ f) :
    regexec pat f = true ↔ (∃ rest, Opens [OPT_ADD, OPT_INS, OPT_APPEND, OPT_PREPEND, OPT_DEL] f rest) ∨ EqRo f ∨
      f = OPT_NOPLINK ∨ f = RO := by
  have hadd := matches_opening f [OPT_ADD, OPT_INS, OPT_APPEND, OPT_PREPEND] OPT_DEL
  have hmod := matches_opening_behind hf [OPT_MOD] OPT_IMOD (61 :: RO)
  rw [pat, regexec_bol, ← matches_whole]
  refine Iff.trans ?_ (or_congr hadd (or_congr hmod Iff.rfl))
  simp only [← exists_or]
  rfl

/-! ## What the manual says -/

/-- mod or imod gives a branch this permission, alone or with attributes; the path has no '=' -/
def Perm (perm f : Bytes) : Prop :=
  ∃ path attrs, Opens [OPT_MOD, OPT_IMOD] f (path ++ 61 :: (perm ++ attrs)) ∧ (61 : UInt8) ∉ path ∧
    (attrs = [] ∨ attrs.head? = some 43)

/-- the field adds or inserts a branch, deletes one, or is ro or noplink -/
def Plain (f : Bytes) : Prop :=
  (∃ rest, Opens [OPT_ADD, OPT_INS, OPT_APPEND, OPT_PREPEND, OPT_DEL] f rest) ∨ f = OPT_NOPLINK ∨ f = RO

/-- the pseudo-links are lost by this field -/
def Loses (f : Bytes) : Prop := Plain f ∨ Perm RO f ∨ Perm RR f

theorem perm_ro_eqRo {f : Bytes} (h : Perm RO f) : EqRo f := by
  obtain ⟨path, attrs, ho, -, -⟩ := h
  exact ⟨_, ho, ⟨path, attrs, by simp⟩⟩

/-- a field by which the pseudo-links are lost, and for which the expression stands -/
def Caught (f : Bytes) : Prop := Plain f ∨ Perm RO f ∨ (Perm RR f ∧ EqRo f)

/-- the permission rr, with no "=ro" behind it -/
def MissedRr (f : Bytes) : Prop := Perm RR f ∧ ¬ EqRo f

/-- "=ro" in a field of mod or imod whose permission is neither ro nor rr -/
def OtherRo (f : Bytes) : Prop := EqRo f ∧ ¬ Perm RO f ∧ ¬ Perm RR f

theorem regexec_cases {f : Bytes} (hf : (44 : UInt8) ∉ f) : regexec pat f = true ↔ Caught f ∨ OtherRo f := by
  have hro : Perm RO f → EqRo f := perm_ro_eqRo
  rw [regexec_pat hf]
  unfold Caught OtherRo Plain
  tauto

theorem loses_cases (f : Bytes) : Loses f ↔ Caught f ∨ MissedRr f := by
  unfold Loses Caught MissedRr
  tauto

/-- two disjunctions with a common part -/
theorem agree_iff (a b c : Prop) : ((a ∨ b) ↔ (a ∨ c)) ↔ a ∨ (b ↔ c) := by tauto

/-- **When test_flush agrees with the manual.** A field that is caught decides; without one, the permission rr is missed
and another permission with "=ro" in it is taken for ro. -/
theorem test_flush_iff (opts : Bytes) (h : (0 : UInt8) ∉ opts) :
    (test_flush opts = 1 ↔ ∃ f ∈ fields opts, Loses f) ↔
      (∃ f ∈ fields opts, Caught f) ∨ ((∃ f ∈ fields opts, OtherRo f) ↔ ∃ f ∈ fields opts, MissedRr f) := by
  have hcode : test_flush opts = 1 ↔ (∃ f ∈ fields opts, Caught f) ∨ ∃ f ∈ fields opts, OtherRo f := by
    rw [test_flush_fields opts h]
    constructor
    · intro ⟨f, hf, hr⟩
      rcases (regexec_cases (field_clean hf).1).1 hr with hc | hc
      · exact Or.inl ⟨f, hf, hc⟩
      · exact Or.inr ⟨f, hf, hc⟩
    · intro hc
      rcases hc with ⟨f, hf, hc⟩ | ⟨f, hf, hc⟩
      · exact ⟨f, hf, (regexec_cases (field_clean hf).1).2 (Or.inl hc)⟩
      · exact ⟨f, hf, (regexec_cases (field_clean hf).1).2 (Or.inr hc)⟩
  have hmanual : (∃ f ∈ fields opts, Loses f) ↔ (∃ f ∈ fields opts, Caught f) ∨ ∃ f ∈ fields opts, MissedRr f := by
    simp only [loses_cases, and_or_left, exists_or]
  rw [hcode, hmanual]
  exact agree_iff _ _ _

/-- "remount,add:1:/b": a field that is caught -/
theorem test_flush_iff_add :
    (0 : UInt8) ∉ [114, 101, 109, 111, 117, 110, 116, 44, 97, 100, 100, 58, 49, 58, 47, 98] ∧
      ((test_flush [114, 101, 109, 111, 117, 110, 116, 44, 97, 100, 100, 58, 49, 58, 47, 98] = 1 ↔
          ∃ f ∈ fields [114, 101, 109, 111, 117, 110, 116, 44, 97, 100, 100, 58, 49, 58, 47, 98], Loses f) ↔
        (∃ f ∈ fields [114, 101, 109, 111, 117, 110, 116, 44, 97, 100, 100, 58, 49, 58, 47, 98], Caught f) ∨
          ((∃ f ∈ fields [114, 101, 109, 111, 117, 110, 116, 44, 97, 100, 100, 58, 49, 58, 47, 98], OtherRo f) ↔
            ∃ f ∈ fields [114, 101, 109, 111, 117, 110, 116, 44, 97, 100, 100, 58, 49, 58, 47, 98], MissedRr f)) :=
  ⟨by decide, test_flush_iff _ (by decide)⟩

/-- "remount,mod:/b=rr": the branch becomes readonly, and nothing is flushed -/
theorem test_flush_misses_rr :
    test_flush [114, 101, 109, 111, 117, 110, 116, 44, 109, 111, 100, 58, 47, 98, 61, 114, 114] = 0 ∧
      ∃ f ∈ fields [114, 101, 109, 111, 117, 110, 116, 44, 109, 111, 100, 58, 47, 98, 61, 114, 114], Loses f := by
  refine ⟨by decide, [109, 111, 100, 58, 47, 98, 61, 114, 114], by decide, Or.inr (Or.inr ?_)⟩
  exact ⟨[47, 98], [], ⟨OPT_MOD, by decide, 58, Or.inl rfl, rfl⟩, by decide, Or.inl rfl⟩

end AufsUtil.Mount.Flush
