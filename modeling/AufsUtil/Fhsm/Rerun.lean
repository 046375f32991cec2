/-
What a re-run of the controller makes of an existing table (`fhsm/fhsm.c`, fhsm_invalid and fhsm_reinit).

fhsm_invalid compares the record at index i with the branch at index i, so it keeps exactly the records that stand at
the index of their branch (`KeptAt`) and frees every other one (`invalid_spec`). fhsm_reinit then walks over the first
nfhsm entries of the branch array; an FHSM branch without a record gets a free one, with the watermarks of the last
kept record before it or the defaults (`inherited`). Its loop carries the invariant `RInv`: kept records are untouched,
no id is given twice, and a branch that needs a record always finds a free one, so AuFin is never reached.

`refresh_spec` is the result: on a table of nfhsm records both functions run to their end and leave a table that is
`Refreshed`. Nothing is assumed about which branches the records belong to, only that ids are not below -1.
-/
import Mathlib.Tactic
import AufsUtil.Fhsm.Table

namespace AufsUtil.Fhsm

open AufsUtil.CStr AufsUtil.SortSearch

variable {F : Type}

/-! ## Branch arrays -/

/-- a branch array as the kernel reports it: the ids are distinct and not negative -/
structure Branches where
  brinfo : List Brinfo
  distinct : (brinfo.map Brinfo.id).Nodup
  nonneg : ∀ b ∈ brinfo, 0 ≤ b.id

def Branches.nfhsm (B : Branches) : ℕ := au_nfhsm B.brinfo

theorem Branches.nfhsm_le (B : Branches) : B.nfhsm ≤ B.brinfo.length := List.countP_le_length

/-- in the array, the id determines the index -/
theorem Branches.index_unique (B : Branches) {i j : ℕ} {b c : Brinfo} (hi : B.brinfo[i]? = some b)
    (hj : B.brinfo[j]? = some c) (h : b.id = c.id) : i = j := by
  have hlt := (List.getElem?_eq_some_iff.1 hi).1
  refine (List.getElem?_inj (by simpa using hlt) B.distinct).1 ?_
  rw [List.getElem?_map, List.getElem?_map, hi, hj]
  simp [h]

/-! ## fhsm_invalid -/

/-- the record at index i stands where its branch stands in the array: the only records fhsm_invalid keeps -/
def KeptAt (wm : List (Wmark F)) (brinfo : List Brinfo) (i : ℕ) : Prop :=
  ∃ w b, wm[i]? = some w ∧ brinfo[i]? = some b ∧ w.brid = b.id

theorem found_eq (p : Bool) (nbr : ℕ) :
    (List.range nbr).foldl (fun found _ => if found then found else p) false = (decide (0 < nbr) && p) := by
  induction nbr with
  | zero => rfl
  | succ n ih =>
    rw [List.range_succ, List.foldl_append, ih]
    cases p <;> simp

/-- a record is kept, or it is invalid and free afterwards -/
theorem invalid_one_cases (B : Branches) (nbr i : ℕ) (w : Wmark F) (hn : 0 < nbr) (hw : -1 ≤ w.brid) :
    ((invalid_one B.brinfo nbr i w).1 = false ∧ (invalid_one B.brinfo nbr i w).2 = w ∧
        ∃ b, B.brinfo[i]? = some b ∧ w.brid = b.id) ∨
      ((invalid_one B.brinfo nbr i w).1 = true ∧ (invalid_one B.brinfo nbr i w).2 = { w with brid := -1 } ∧
        ¬ ∃ b, B.brinfo[i]? = some b ∧ w.brid = b.id) := by
  unfold invalid_one
  rw [found_eq]
  simp only [hn, decide_true, Bool.true_and, decide_eq_true_eq, Option.map_eq_some_iff]
  split_ifs with hneg hex
  · refine Or.inr ⟨rfl, ?_, ?_⟩
    · have : w.brid = -1 := by omega
      rw [← this]
    · rintro ⟨b, hb, hwb⟩
      have := B.nonneg b (List.mem_of_getElem? hb)
      omega
  · obtain ⟨b, hb, hbw⟩ := hex
    exact Or.inl ⟨rfl, rfl, b, hb, hbw.symm⟩
  · exact Or.inr ⟨rfl, rfl, fun ⟨b, hb, hwb⟩ => hex ⟨b, hb, hwb.symm⟩⟩

/-- the table after fhsm_invalid, seen from the one before: the kept records are untouched, the others are free -/
structure Invalidated (wm : List (Wmark F)) (brinfo : List Brinfo) (V : List (Wmark F)) : Prop where
  len : V.length = wm.length
  kept : ∀ (i : ℕ) (w : Wmark F), wm[i]? = some w → KeptAt wm brinfo i → V[i]? = some w
  free : ∀ (i : ℕ) (w : Wmark F), V[i]? = some w → ¬ KeptAt wm brinfo i → w.brid = -1

theorem invalid_spec (B : Branches) (t : Aufhsm F) (nbr : ℕ) (hn : t.wmark.length ≤ nbr)
    (ht : ∀ w ∈ t.wmark, -1 ≤ w.brid) :
    Invalidated t.wmark B.brinfo (fhsm_invalid t B.brinfo nbr).2.wmark ∧
      ((fhsm_invalid t B.brinfo nbr).1 = 0 → ∀ i < t.wmark.length, KeptAt t.wmark B.brinfo i) := by
  have hcases : ∀ i w, t.wmark[i]? = some w → _ := fun i w hi =>
    invalid_one_cases B nbr i w (by have := (List.getElem?_eq_some_iff.1 hi).1; omega)
      (ht w (List.mem_of_getElem? hi))
  have hV : ∀ i, (fhsm_invalid t B.brinfo nbr).2.wmark[i]? =
      t.wmark[i]?.map fun w => (invalid_one B.brinfo nbr i w).2 := by
    intro i
    simp only [fhsm_invalid, List.getElem?_map, List.getElem?_mapIdx, Option.map_map]
    rfl
  refine ⟨⟨by simp [fhsm_invalid], ?_, ?_⟩, ?_⟩
  · rintro i w hi ⟨w', b, hw', hb, hwb⟩
    rw [hi, Option.some.injEq] at hw'
    subst hw'
    rcases hcases i w hi with ⟨-, he, -⟩ | ⟨-, -, hno⟩
    · rw [hV, hi, Option.map_some, he]
    · exact absurd ⟨b, hb, hwb⟩ hno
  · intro i w hi hnk
    rw [hV, Option.map_eq_some_iff] at hi
    obtain ⟨v, hv, rfl⟩ := hi
    rcases hcases i v hv with ⟨-, -, b, hb, hvb⟩ | ⟨-, he, -⟩
    · exact absurd ⟨v, b, hv, hb, hvb⟩ hnk
    · rw [he]
  · intro h0 i hi
    obtain ⟨w, hw⟩ : ∃ w, t.wmark[i]? = some w := ⟨_, List.getElem?_eq_getElem hi⟩
    rcases hcases i w hw with ⟨-, -, b, hb, hwb⟩ | ⟨hinv, -, -⟩
    · exact ⟨w, b, hw, hb, hwb⟩
    · exfalso
      simp only [fhsm_invalid, List.countP_eq_zero] at h0
      refine h0 (invalid_one B.brinfo nbr i w) (List.mem_of_getElem? (i := i) ?_) hinv
      rw [List.getElem?_mapIdx, hw]
      rfl

/-! ## fhsm_reinit -/

/-- an FHSM branch whose record stands at the branch's own index: where fhsm_reinit sets `prev` -/
def fhsmKept (wm : List (Wmark F)) (brinfo : List Brinfo) (i : ℕ) : Bool :=
  match wm[i]?, brinfo[i]? with
  | some w, some b => b.fhsm && w.brid == b.id
  | _, _ => false

/-- `prev` before the branch at index m is handled: the last such index below m -/
def prevOf (wm : List (Wmark F)) (brinfo : List Brinfo) : ℕ → Option ℕ
  | 0 => none
  | m + 1 => if fhsmKept wm brinfo m then some m else prevOf wm brinfo m

/-- the watermarks a free record gets for the branch at index m: those of `prev`, or the defaults -/
def inherited (fl : Floats F) (wm : List (Wmark F)) (brinfo : List Brinfo) (m : ℕ) : (F × F) × (F × F) :=
  match (prevOf wm brinfo m).bind (wm[·]?) with
  | none => ((fl.quarter, fl.half), (fl.one, fl.one))
  | some p => (p.block, p.inode)

/-- the branch at index i has a record once the branches below index m were handled -/
def Present (V : List (Wmark F)) (B : Branches) (m i : ℕ) (b : Brinfo) : Prop :=
  B.brinfo[i]? = some b ∧ i < V.length ∧ (KeptAt V B.brinfo i ∨ (i < m ∧ b.fhsm = true))

/-- the records while fhsm_reinit runs, V being the table it started from: kept records are untouched, every other
record is free or belongs to an FHSM branch handled before, no two records share an id -/
structure RInv (fl : Floats F) (V : List (Wmark F)) (B : Branches) (m : ℕ) (wm : List (Wmark F)) : Prop where
  len : wm.length = V.length
  keep : ∀ (i : ℕ) (w : Wmark F), V[i]? = some w → w.brid ≠ -1 → wm[i]? = some w
  sub : ∀ w ∈ wm, w.brid = -1 ∨ ∃ i b, Present V B m i b ∧ b.id = w.brid
  uniq : ∀ (i j : ℕ) (w v : Wmark F), wm[i]? = some w → wm[j]? = some v → w.brid = v.brid → w.brid ≠ -1 → i = j
  marks : ∀ i b, B.brinfo[i]? = some b → i < m → i < V.length → b.fhsm = true → ¬ KeptAt V B.brinfo i →
    ∃ w ∈ wm, w.brid = b.id ∧ (w.block, w.inode) = inherited fl V B.brinfo i

section Reinit

variable {fl : Floats F} {V : List (Wmark F)} {B : Branches}

theorem rinv_init (hV : ∀ (i : ℕ) (w : Wmark F), V[i]? = some w → w.brid = -1 ∨ KeptAt V B.brinfo i) : RInv fl V B 0 V := by
  refine ⟨rfl, fun i w hi _ => hi, ?_, ?_, fun i b _ h0 => absurd h0 (by omega)⟩
  · intro w hw
    obtain ⟨i, hi⟩ := List.mem_iff_getElem?.1 hw
    rcases hV i w hi with h | ⟨w', b, hw', hb, hwb⟩
    · exact Or.inl h
    · rw [hi, Option.some.injEq] at hw'
      subst hw'
      exact Or.inr ⟨i, b, ⟨hb, (List.getElem?_eq_some_iff.1 hi).1, Or.inl ⟨w, b, hi, hb, hwb⟩⟩, hwb.symm⟩
  · intro i j w v hi hj hwv hw
    obtain ⟨w', b, hw', hb, hwb⟩ := (hV i w hi).resolve_left hw
    obtain ⟨v', c, hv', hc, hvc⟩ := (hV j v hj).resolve_left (hwv ▸ hw)
    rw [hi, Option.some.injEq] at hw'
    rw [hj, Option.some.injEq] at hv'
    subst hw' hv'
    exact B.index_unique hb hc (by rw [← hwb, ← hvc, hwv])

/-- a branch that stands at index m and has no record of its own there is not in the table -/
theorem RInv.absent {m : ℕ} {wm : List (Wmark F)} (h : RInv fl V B m wm) {b : Brinfo} (hb : B.brinfo[m]? = some b)
    (hk : ¬ KeptAt V B.brinfo m) : ∀ w ∈ wm, w.brid ≠ b.id := by
  intro w hw hwb
  rcases h.sub w hw with h1 | ⟨i, c, ⟨hc, -, hpres⟩, hcw⟩
  · have := B.nonneg b (List.mem_of_getElem? hb)
    omega
  · obtain rfl := B.index_unique hc hb (hcw.trans hwb)
    rcases hpres with hkept | ⟨hlt, -⟩
    · exact hk hkept
    · omega

/-- there is a free record for it: the ids in the table are ids of the other branches below V.length -/
theorem RInv.free {m : ℕ} {wm : List (Wmark F)} (h : RInv fl V B m wm) {b : Brinfo} (hb : B.brinfo[m]? = some b)
    (hm : m < V.length) (hlen : V.length ≤ B.brinfo.length) (hk : ¬ KeptAt V B.brinfo m) :
    ∃ w ∈ wm, w.brid = -1 := by
  by_contra hno
  have hnd : (wm.map Wmark.brid).Nodup := by
    rw [List.nodup_iff_getElem?_ne_getElem?]
    intro i j hij hj heq
    rw [List.length_map] at hj
    obtain ⟨w, hw⟩ : ∃ w, wm[i]? = some w := ⟨_, List.getElem?_eq_getElem (by omega)⟩
    obtain ⟨v, hv⟩ : ∃ v, wm[j]? = some v := ⟨_, List.getElem?_eq_getElem hj⟩
    rw [List.getElem?_map, List.getElem?_map, hw, hv] at heq
    have hwv : w.brid = v.brid := by simpa using heq
    have := h.uniq i j w v hw hv hwv fun hw1 => hno ⟨w, List.mem_of_getElem? hw, hw1⟩
    omega
  have hsub : wm.map Wmark.brid ⊆ ((B.brinfo.take V.length).eraseIdx m).map Brinfo.id := by
    intro x hx
    obtain ⟨w, hw, rfl⟩ := List.mem_map.1 hx
    rcases h.sub w hw with h1 | ⟨i, c, ⟨hc, hi, -⟩, hcw⟩
    · exact absurd ⟨w, hw, h1⟩ hno
    · rw [List.mem_map]
      refine ⟨c, List.mem_eraseIdx_iff_getElem?.2 ⟨i, ?_, ?_⟩, hcw⟩
      · intro him
        subst him
        rw [hb, Option.some.injEq] at hc
        subst hc
        exact h.absent hb hk w hw hcw.symm
      · rw [List.getElem?_take_of_lt hi, hc]
  have hle := (List.subperm_of_subset hnd hsub).length_le
  rw [List.length_map, List.length_map, List.length_eraseIdx_of_lt (by rw [List.length_take]; omega), List.length_take,
    h.len] at hle
  omega

theorem present_mono {m i : ℕ} {b : Brinfo} (h : Present V B m i b) : Present V B (m + 1) i b :=
  ⟨h.1, h.2.1, h.2.2.imp_right fun ⟨hi, hf⟩ => ⟨by omega, hf⟩⟩

/-- a branch that needs no new record leaves the table alone -/
theorem RInv.skip {m : ℕ} {wm : List (Wmark F)} (h : RInv fl V B m wm) {b : Brinfo} (hb : B.brinfo[m]? = some b)
    (hskip : b.fhsm = true → KeptAt V B.brinfo m) : RInv fl V B (m + 1) wm := by
  refine ⟨h.len, h.keep, fun w hw => (h.sub w hw).imp_right fun ⟨i, c, hc, hcw⟩ => ⟨i, c, present_mono hc, hcw⟩, h.uniq,
    ?_⟩
  intro i c hc hi hV hf hk
  rcases Nat.lt_succ_iff_lt_or_eq.1 hi with hi | rfl
  · exact h.marks i c hc hi hV hf hk
  · rw [hb, Option.some.injEq] at hc
    subst hc
    exact absurd (hskip hf) hk

/-- a free record becomes the record of the branch at index m -/
theorem RInv.fill {m k : ℕ} {wm : List (Wmark F)} (h : RInv fl V B m wm) {b : Brinfo} (hb : B.brinfo[m]? = some b)
    (hm : m < V.length) (hf : b.fhsm = true) (hk : ¬ KeptAt V B.brinfo m) {w₀ w₁ : Wmark F} (hw₀ : wm[k]? = some w₀)
    (hfree : w₀.brid = -1) (hid : w₁.brid = b.id) (hmarks : (w₁.block, w₁.inode) = inherited fl V B.brinfo m) :
    RInv fl V B (m + 1) (wm.set k w₁) := by
  have hkl : k < wm.length := (List.getElem?_eq_some_iff.1 hw₀).1
  have hset : ∀ i, (wm.set k w₁)[i]? = if k = i then some w₁ else wm[i]? := by
    intro i
    rw [List.getElem?_set]
    split_ifs with hki <;> simp_all
  have hother : ∀ (i : ℕ) (w : Wmark F), wm[i]? = some w → w.brid ≠ -1 → (wm.set k w₁)[i]? = some w := by
    intro i w hi hw
    rw [hset, if_neg, hi]
    intro hki
    subst hki
    rw [hw₀, Option.some.injEq] at hi
    exact hw (hi ▸ hfree)
  have hnew : w₁ ∈ wm.set k w₁ := List.mem_of_getElem? (by rw [hset, if_pos rfl])
  have hback : ∀ (i : ℕ) (w : Wmark F), (wm.set k w₁)[i]? = some w → (i = k ∧ w = w₁) ∨ wm[i]? = some w := by
    intro i w hi
    rw [hset] at hi
    split_ifs at hi with hki
    · exact Or.inl ⟨hki.symm, (Option.some.inj hi).symm⟩
    · exact Or.inr hi
  have habs := h.absent hb hk
  refine ⟨by rw [List.length_set, h.len], fun i w hi hw => hother i w (h.keep i w hi hw) hw, ?_, ?_, ?_⟩
  · intro w hw
    obtain ⟨i, hi⟩ := List.mem_iff_getElem?.1 hw
    rcases hback i w hi with ⟨-, rfl⟩ | hi
    · exact Or.inr ⟨m, b, ⟨hb, hm, Or.inr ⟨by omega, hf⟩⟩, hid.symm⟩
    · exact (h.sub w (List.mem_of_getElem? hi)).imp_right fun ⟨i, c, hc, hcw⟩ => ⟨i, c, present_mono hc, hcw⟩
  · intro i j w v hi hj hwv hw
    rcases hback i w hi with ⟨rfl, rfl⟩ | hi' <;> rcases hback j v hj with ⟨rfl, rfl⟩ | hj'
    · rfl
    · exact absurd (hwv.symm.trans hid) (habs v (List.mem_of_getElem? hj'))
    · exact absurd (hwv.trans hid) (habs w (List.mem_of_getElem? hi'))
    · exact h.uniq i j w v hi' hj' hwv hw
  · intro i c hc hi hV hcf hck
    rcases Nat.lt_succ_iff_lt_or_eq.1 hi with hi | rfl
    · obtain ⟨w, hw, hwc, hwm⟩ := h.marks i c hc hi hV hcf hck
      obtain ⟨j, hj⟩ := List.mem_iff_getElem?.1 hw
      have hne : w.brid ≠ -1 := by
        have := B.nonneg c (List.mem_of_getElem? hc)
        omega
      exact ⟨w, List.mem_of_getElem? (hother j w hj hne), hwc, hwm⟩
    · rw [hb, Option.some.injEq] at hc
      subst hc
      exact ⟨w₁, hnew, hid, hmarks⟩

theorem fhsmKept_iff (wm : List (Wmark F)) {m : ℕ} {b : Brinfo} (hb : B.brinfo[m]? = some b) :
    fhsmKept wm B.brinfo m = true ↔ b.fhsm = true ∧ KeptAt wm B.brinfo m := by
  unfold fhsmKept KeptAt
  cases hw : wm[m]? with
  | none => simp
  | some w => simp [hb]

/-- `prev` is a kept record -/
theorem prevOf_kept (wm : List (Wmark F)) (m j : ℕ) (h : prevOf wm B.brinfo m = some j) :
    j < m ∧ KeptAt wm B.brinfo j := by
  induction m with
  | zero => cases h
  | succ m ih =>
    rw [prevOf] at h
    split_ifs at h with hk
    · obtain rfl := Option.some.inj h
      refine ⟨by omega, ?_⟩
      cases hb : B.brinfo[m]? with
      | none => simp [fhsmKept, hb] at hk
      | some b => exact ((fhsmKept_iff wm hb).1 hk).2
    · exact ⟨by have := (ih h).1; omega, (ih h).2⟩

/-- a kept record is not free -/
theorem KeptAt.not_free {wm : List (Wmark F)} {i : ℕ} (h : KeptAt wm B.brinfo i) {w : Wmark F}
    (hw : wm[i]? = some w) : w.brid ≠ -1 := by
  obtain ⟨w', b, hw', hb, hwb⟩ := h
  rw [hw, Option.some.injEq] at hw'
  subst hw'
  have := B.nonneg b (List.mem_of_getElem? hb)
  omega

theorem modify_of_getElem? (wm : List (Wmark F)) (k : ℕ) (f : Wmark F → Wmark F) {w : Wmark F}
    (hw : wm[k]? = some w) : wm.modify k f = wm.set k (f w) := by
  apply List.ext_getElem?
  intro i
  rw [List.getElem?_modify, List.getElem?_set]
  obtain ⟨hk, rfl⟩ := List.getElem?_eq_some_iff.1 hw
  by_cases hki : k = i
  · subst hki
    simp [hk]
  · simp [hki]

/-- one turn of fhsm_reinit never ends the process, and keeps the invariant -/
theorem reinit_one_step {m : ℕ} {wm : List (Wmark F)} (h : RInv fl V B m wm) {b : Brinfo} (hb : B.brinfo[m]? = some b)
    (hm : m < V.length) (hlen : V.length ≤ B.brinfo.length) :
    ∃ wm', reinit_one fl b wm (prevOf V B.brinfo m) = some (wm', prevOf V B.brinfo (m + 1)) ∧
      RInv fl V B (m + 1) wm' := by
  have hid : 0 ≤ b.id := B.nonneg b (List.mem_of_getElem? hb)
  have hkept := fhsmKept_iff V hb
  unfold reinit_one
  rw [prevOf]
  by_cases hf : b.fhsm = true
  · have hnn : ¬ b.id < 0 := by omega
    simp only [hf, Bool.not_true, Bool.false_eq_true, if_false, hnn]
    by_cases hk : KeptAt V B.brinfo m
    · -- its record is the one at index m, and becomes `prev`
      obtain ⟨w, c, hw, hc, hwc⟩ := id hk
      rw [hb, Option.some.injEq] at hc
      subst hc
      have hwm := h.keep m w hw (hk.not_free hw)
      cases hl : au_wm_lfind b.id wm with
      | none =>
        rw [lfind_none_iff] at hl
        exact absurd hwc (hl w (List.mem_of_getElem? hwm))
      | some k =>
        obtain ⟨v, hv, hvb⟩ := lfind_some hl
        obtain rfl := h.uniq k m v w hv hwm (hvb.trans hwc.symm) (by omega)
        rw [if_pos (hkept.2 ⟨hf, hk⟩)]
        exact ⟨wm, rfl, h.skip hb fun _ => hk⟩
    · -- no record: a free one is filled
      rw [(lfind_none_iff b.id wm).2 (h.absent hb hk), if_neg fun hc => hk (hkept.1 hc).2]
      cases hl : au_wm_lfind (-1) wm with
      | none =>
        obtain ⟨w, hw, hw1⟩ := h.free hb hm hlen hk
        exact absurd hw1 ((lfind_none_iff (-1) wm).1 hl w hw)
      | some k =>
        obtain ⟨w₀, hw₀, hfree⟩ := lfind_some hl
        have hprev : (prevOf V B.brinfo m).bind (wm[·]?) = (prevOf V B.brinfo m).bind (V[·]?) := by
          cases hp : prevOf V B.brinfo m with
          | none => rfl
          | some j =>
            obtain ⟨-, hj⟩ := prevOf_kept V m j hp
            obtain ⟨w, c, hw, -⟩ := id hj
            simp only [Option.bind_some]
            rw [hw, h.keep j w hw (hj.not_free hw)]
        refine ⟨_, rfl, ?_⟩
        rw [modify_of_getElem? wm k _ hw₀, hprev]
        refine h.fill hb hm hf hk hw₀ hfree ?_ ?_
        · split <;> rfl
        · unfold inherited
          cases (prevOf V B.brinfo m).bind (V[·]?) <;> rfl
  · have hf' : b.fhsm = false := by simpa using hf
    rw [if_neg fun hc => hf (hkept.1 hc).1]
    simp only [hf', Bool.not_false, if_true]
    exact ⟨wm, rfl, h.skip hb fun hc => absurd hc hf⟩

/-- the loop over the branches from index m on runs to its end -/
theorem reinit_loop_run (hlen : V.length ≤ B.brinfo.length) :
    ∀ (d m : ℕ) (wm : List (Wmark F)), m + d = V.length → RInv fl V B m wm →
      ∃ R, reinit_loop fl ((B.brinfo.take V.length).drop m) wm (prevOf V B.brinfo m) = (true, R) ∧
        RInv fl V B V.length R := by
  intro d
  induction d with
  | zero =>
    intro m wm hm h
    obtain rfl : m = V.length := by omega
    rw [List.drop_eq_nil_of_le (by simp)]
    exact ⟨wm, rfl, h⟩
  | succ d ih =>
    intro m wm hm h
    have hml : m < (B.brinfo.take V.length).length := by rw [List.length_take]; omega
    have hb : B.brinfo[m]? = some (B.brinfo.take V.length)[m] := by
      rw [← List.getElem?_take_of_lt (show m < V.length by omega), List.getElem?_eq_getElem hml]
    obtain ⟨wm', hone, h'⟩ := reinit_one_step h hb (by omega) hlen
    obtain ⟨R, hrest, hR⟩ := ih (m + 1) wm' (by omega) h'
    refine ⟨R, ?_, hR⟩
    rw [List.drop_eq_getElem_cons hml, reinit_loop, hone]
    exact hrest

/-- when every record is kept, the table already is what fhsm_reinit would leave -/
theorem rinv_all_kept (hlen : V.length ≤ B.brinfo.length) (hall : ∀ i < V.length, KeptAt V B.brinfo i) :
    ∀ m ≤ V.length, RInv fl V B m V := by
  intro m
  induction m with
  | zero =>
    intro _
    exact rinv_init fun i w hi => Or.inr (hall i (List.getElem?_eq_some_iff.1 hi).1)
  | succ m ih =>
    intro hm
    exact (ih (by omega)).skip (List.getElem?_eq_getElem (by omega)) fun _ => hall m (by omega)

end Reinit

/-! ## The table after a re-run -/

/-- the records R that a re-run makes out of the resized table T: a record that stands at its branch's index survives;
every FHSM branch among the first T.length ones has a record, with inherited watermarks if it is a new one; no other
branch has one, and no two records share an id -/
structure Refreshed (fl : Floats F) (T : List (Wmark F)) (B : Branches) (R : List (Wmark F)) : Prop where
  len : R.length = T.length
  keep : ∀ (i : ℕ) (w : Wmark F), T[i]? = some w → KeptAt T B.brinfo i → w ∈ R
  fill : ∀ i b, B.brinfo[i]? = some b → i < T.length → b.fhsm = true → ¬ KeptAt T B.brinfo i →
    ∃ w ∈ R, w.brid = b.id ∧ (w.block, w.inode) = inherited fl T B.brinfo i
  sub : ∀ w ∈ R, w.brid = -1 ∨ ∃ i b, B.brinfo[i]? = some b ∧ i < T.length ∧
    (KeptAt T B.brinfo i ∨ b.fhsm = true) ∧ b.id = w.brid
  uniq : ((R.map Wmark.brid).filter (· ≠ -1)).Nodup

theorem Refreshed.perm {fl : Floats F} {T R R' : List (Wmark F)} {B : Branches} (h : Refreshed fl T B R)
    (hp : R'.Perm R) : Refreshed fl T B R' := by
  refine ⟨hp.length_eq.trans h.len, fun i w hi hk => hp.mem_iff.2 (h.keep i w hi hk), ?_,
    fun w hw => h.sub w (hp.mem_iff.1 hw), ?_⟩
  · intro i b hb hi hf hk
    obtain ⟨w, hw, hwb⟩ := h.fill i b hb hi hf hk
    exact ⟨w, hp.mem_iff.2 hw, hwb⟩
  · exact (((hp.map Wmark.brid).filter _).nodup_iff).2 h.uniq

/-- every FHSM branch among the first T.length ones has a record -/
theorem Refreshed.has {fl : Floats F} {T R : List (Wmark F)} {B : Branches} (h : Refreshed fl T B R) {i : ℕ}
    {b : Brinfo} (hb : B.brinfo[i]? = some b) (hi : i < T.length) (hf : b.fhsm = true) : ∃ w ∈ R, w.brid = b.id := by
  by_cases hk : KeptAt T B.brinfo i
  · obtain ⟨w, c, hw, hc, hwc⟩ := id hk
    rw [hb, Option.some.injEq] at hc
    exact ⟨w, h.keep i w hw hk, hc ▸ hwc⟩
  · obtain ⟨w, hw, hwb, -⟩ := h.fill i b hb hi hf hk
    exact ⟨w, hw, hwb⟩

/-- the index-wise uniqueness of the loop invariant, as a property of the ids alone -/
theorem nodup_of_uniq (wm : List (Wmark F)) (h : ∀ (i j : ℕ) (w v : Wmark F), wm[i]? = some w → wm[j]? = some v →
    w.brid = v.brid → w.brid ≠ -1 → i = j) : ((wm.map Wmark.brid).filter (· ≠ -1)).Nodup := by
  have hpair : wm.Pairwise fun w v => w.brid = v.brid → w.brid = -1 := by
    rw [List.pairwise_iff_getElem]
    intro i j hi hj hij hwv
    by_contra hne
    have := h i j _ _ (List.getElem?_eq_getElem hi) (List.getElem?_eq_getElem hj) hwv hne
    omega
  rw [List.Nodup, List.pairwise_filter, List.pairwise_map]
  refine hpair.imp ?_
  intro w v hwv hw _ heq
  simp [hwv heq] at hw

section Invalidated

variable {fl : Floats F} {T V : List (Wmark F)} {B : Branches}

theorem Invalidated.kept_iff (h : Invalidated T B.brinfo V) (i : ℕ) : KeptAt V B.brinfo i ↔ KeptAt T B.brinfo i := by
  refine ⟨?_, ?_⟩
  · intro hk
    by_contra hn
    obtain ⟨w, b, hw, -⟩ := id hk
    exact hk.not_free hw (h.free i w hw hn)
  · intro hk
    obtain ⟨w, b, hw, hb, hwb⟩ := id hk
    exact ⟨w, b, h.kept i w hw hk, hb, hwb⟩

theorem Invalidated.getElem? (h : Invalidated T B.brinfo V) {i : ℕ} (hk : KeptAt T B.brinfo i) : V[i]? = T[i]? := by
  obtain ⟨w, b, hw, -⟩ := id hk
  rw [hw, h.kept i w hw hk]

theorem Invalidated.prevOf_eq (h : Invalidated T B.brinfo V) (m : ℕ) :
    prevOf V B.brinfo m = prevOf T B.brinfo m := by
  induction m with
  | zero => rfl
  | succ m ih =>
    have hk : fhsmKept V B.brinfo m = fhsmKept T B.brinfo m := by
      cases hb : B.brinfo[m]? with
      | none => simp [fhsmKept, hb]
      | some b => rw [Bool.eq_iff_iff, fhsmKept_iff V hb, fhsmKept_iff T hb, h.kept_iff]
    rw [prevOf, prevOf, ih, hk]

theorem Invalidated.inherited_eq (h : Invalidated T B.brinfo V) (m : ℕ) :
    inherited fl V B.brinfo m = inherited fl T B.brinfo m := by
  have hbind : (prevOf V B.brinfo m).bind (V[·]?) = (prevOf T B.brinfo m).bind (T[·]?) := by
    rw [h.prevOf_eq]
    cases hp : prevOf T B.brinfo m with
    | none => rfl
    | some j =>
      simp only [Option.bind_some]
      exact h.getElem? (prevOf_kept T m j hp).2
  unfold inherited
  rw [hbind]

/-- what the loop invariant says when the loop is done, in terms of the table before fhsm_invalid -/
theorem RInv.refreshed (hinv : Invalidated T B.brinfo V) {R : List (Wmark F)} (h : RInv fl V B V.length R) :
    Refreshed fl T B R := by
  refine ⟨h.len.trans hinv.len, ?_, ?_, ?_, nodup_of_uniq R h.uniq⟩
  · intro i w hi hk
    have hV := hinv.kept i w hi hk
    exact List.mem_of_getElem? (h.keep i w hV (hk.not_free hi))
  · intro i b hb hi hf hk
    obtain ⟨w, hw, hwb, hwm⟩ := h.marks i b hb (hinv.len ▸ hi) (hinv.len ▸ hi) hf
      fun hc => hk ((hinv.kept_iff i).1 hc)
    exact ⟨w, hw, hwb, hinv.inherited_eq i ▸ hwm⟩
  · intro w hw
    refine (h.sub w hw).imp_right fun ⟨i, b, ⟨hb, hi, hpres⟩, hbw⟩ => ⟨i, b, hb, hinv.len ▸ hi, ?_, hbw⟩
    exact hpres.imp (hinv.kept_iff i).1 And.right

end Invalidated

/-- the part of au_fhsm between the resize and the sort, on a table of as many records as there are FHSM branches -/
theorem refresh_spec (fl : Floats F) (B : Branches) (t : Aufhsm F) (hn : t.nwmark = B.nfhsm)
    (ht : ∀ w ∈ t.wmark, -1 ≤ w.brid) :
    ∃ R, fhsm_refresh fl t B.nfhsm B.brinfo = (true, { t with wmark := R }) ∧ Refreshed fl t.wmark B R := by
  have hle := B.nfhsm_le
  obtain ⟨hinv, hzero⟩ := invalid_spec B t B.nfhsm (le_of_eq hn) ht
  set V := (fhsm_invalid t B.brinfo B.nfhsm).2.wmark with hVdef
  have hVn : V.length = B.nfhsm := hinv.len.trans hn
  unfold fhsm_refresh
  dsimp only
  split_ifs with h0
  · have hV : ∀ (i : ℕ) (w : Wmark F), V[i]? = some w → w.brid = -1 ∨ KeptAt V B.brinfo i := by
      intro i w hi
      by_cases hk : KeptAt t.wmark B.brinfo i
      · exact Or.inr ((hinv.kept_iff i).2 hk)
      · exact Or.inl (hinv.free i w hi hk)
    have hinit : RInv fl V B 0 V := rinv_init hV
    obtain ⟨R, hR, h⟩ := reinit_loop_run (by omega) V.length 0 V (by omega) hinit
    refine ⟨R, ?_, h.refreshed hinv⟩
    rw [List.drop_zero, hVn] at hR
    simp only [fhsm_reinit, ← hVdef]
    rw [show (none : Option ℕ) = prevOf V B.brinfo 0 from rfl, hR]
    rfl
  · have hall : ∀ i < V.length, KeptAt V B.brinfo i := by
      intro i hi
      exact (hinv.kept_iff i).2 (hzero (by omega) i (hinv.len ▸ hi))
    exact ⟨V, rfl, (rinv_all_kept (by omega) hall V.length le_rfl).refreshed hinv⟩

end AufsUtil.Fhsm
