/-
The watermark table over whole histories of controller runs.

A history is any sequence of successful au_fhsm calls, watermark arguments and signatures, from no table at all; the
branch array may be another one in every call (`table_step`). In every state a history leaves, the records are sorted
by brid, free records are -1 and no other brid occurs twice (`table_ok`).

- `search_agrees`: in these tables the daemon's binary search and the controller's linear search find the same record.
- `table_exact_iff`: when the table describes exactly the FHSM branches after a call. It does after the first call. A
  re-run drops the records that do not stand at the index of their branch and fills free ones from the first nfhsm
  entries of the branch array only, so it does exactly if these entries are the FHSM branches.
- `marks_kept_iff`: when a re-run keeps the watermarks of every branch that is still an FHSM branch.
-/
import Mathlib.Tactic
import AufsUtil.Lib.Runs
import AufsUtil.Fhsm.Rerun
import AufsUtil.Fhsm.Control

namespace AufsUtil.Fhsm

open AufsUtil.CStr AufsUtil.SortSearch AufsUtil.Runs

variable {F : Type}

/-! ## Histories -/

/-- one call that touches the table -/
inductive TableOp where
  | fhsm (sys : ShmSys) (B : Branches)
  | wmark (inode : Bool) (str : Bytes) (brinfo : List Brinfo)
  | sign

/-- the named shared memory after the call; of the calls of au_fhsm only the successful ones are steps, a rejected
argument leaves the table alone -/
def table_step (fl : Floats F) (qs : Qsort bridOrd (Wmark.brid (F := F))) (bp : Bsearch strcmp Brinfo.path) :
    Option (Aufhsm F) → TableOp → Option (Option (Aufhsm F))
  | s, .fhsm sys B =>
    match au_fhsm fl qs sys s B.nfhsm B.brinfo with
    | .ret err t => if err = 0 then some t else none
    | _ => none
  | some t, .wmark inode str brinfo => some (some ((wmark fl bp inode str t brinfo).getD t))
  | some t, .sign => some (some (au_fhsm_sign fl t))
  | none, _ => none

/-- sorted, -1 for a free record, no other brid twice -/
structure TableOk (t : Aufhsm F) : Prop where
  sorted : t.brids.Pairwise (· ≤ ·)
  ge : ∀ x ∈ t.brids, -1 ≤ x
  uniq : (t.brids.filter (· ≠ -1)).Nodup

/-! ## A new table -/

def Branches.ids (B : Branches) : List ℤ := (B.brinfo.filter Brinfo.fhsm).map Brinfo.id

theorem Branches.ids_nodup (B : Branches) : B.ids.Nodup :=
  B.distinct.sublist (List.filter_sublist.map Brinfo.id)

theorem Branches.ids_length (B : Branches) : B.ids.length = B.nfhsm := by
  rw [Branches.ids, List.length_map, Branches.nfhsm, au_nfhsm, List.countP_eq_length_filter]

theorem Branches.mem_ids (B : Branches) (x : ℤ) : x ∈ B.ids ↔ ∃ b ∈ B.brinfo, b.fhsm = true ∧ b.id = x := by
  simp only [Branches.ids, List.mem_map, List.mem_filter, and_assoc]

theorem Branches.ids_nonneg (B : Branches) {x : ℤ} (h : x ∈ B.ids) : 0 ≤ x := by
  obtain ⟨b, hb, -, rfl⟩ := (B.mem_ids x).1 h
  exact B.nonneg b hb

/-- the loop writes the ids of the FHSM branches from record k on -/
theorem create_loop_brids (fl : Floats F) (bs : List Brinfo) (k : ℕ) (wm : List (Wmark F))
    (hlen : wm.length = k + bs.countP Brinfo.fhsm) :
    (create_loop fl bs k wm).map Wmark.brid =
      (wm.take k).map Wmark.brid ++ (bs.filter Brinfo.fhsm).map Brinfo.id := by
  induction bs generalizing k wm with
  | nil =>
    have : wm.length ≤ k := by simpa using hlen.le
    simp [create_loop, List.take_of_length_le this]
  | cons b bs ih =>
    rw [create_loop]
    by_cases hf : b.fhsm = true
    · rw [List.countP_cons, if_pos hf] at hlen
      rw [if_pos hf, ih (k + 1) _ (by rw [List.length_modify]; omega), List.filter_cons_of_pos hf]
      have hk : k < wm.length := by omega
      have hget : wm[k]? = some wm[k] := List.getElem?_eq_getElem hk
      rw [modify_of_getElem? wm k _ hget, List.take_add_one, List.take_set_of_le le_rfl, List.getElem?_set_self hk]
      simp [wm_init]
    · rw [List.countP_cons, if_neg hf] at hlen
      rw [if_neg hf, ih k wm (by omega), List.filter_cons_of_neg hf]

theorem create_brids (fl : Floats F) (B : Branches) : (fhsm_create fl B.nfhsm B.brinfo).brids = B.ids := by
  rw [Aufhsm.brids, fhsm_create, create_loop_brids]
  · simp [Branches.ids]
  · simp [Branches.nfhsm, au_nfhsm]

/-! ## One call of au_fhsm -/

theorem sort_pairwise (qs : Qsort bridOrd (Wmark.brid (F := F))) (t : Aufhsm F) :
    (au_fhsm_sort_brid qs t).brids.Pairwise (· ≤ ·) := by
  rw [Aufhsm.brids, List.pairwise_map]
  refine (qs.sorted t.wmark).imp ?_
  intro a b h
  simpa [Le, Std.isLE_compare] using h

theorem sort_brids_perm (qs : Qsort bridOrd (Wmark.brid (F := F))) (t : Aufhsm F) :
    (au_fhsm_sort_brid qs t).brids.Perm t.brids := (qs.perm t.wmark).map Wmark.brid

theorem resized_length (fl : Floats F) (n : ℕ) (t : Aufhsm F) : (resized fl n t).nwmark = n := by
  simp only [resized, Aufhsm.nwmark, List.length_append, List.length_take, List.length_replicate]
  omega

theorem resized_getElem? (fl : Floats F) (n : ℕ) (t : Aufhsm F) {i : ℕ} {w : Wmark F}
    (h : (resized fl n t).wmark[i]? = some w) : (i < n ∧ t.wmark[i]? = some w) ∨ (t.nwmark ≤ i ∧ w.brid = -1) := by
  have hlen : (t.wmark.take n).length = min n t.nwmark := List.length_take
  rw [resized, List.getElem?_append, hlen] at h
  split_ifs at h with hi
  · rw [List.getElem?_take_of_lt (by omega)] at h
    exact Or.inl ⟨by omega, h⟩
  · rw [List.getElem?_replicate] at h
    split_ifs at h with hr
    exact Or.inr ⟨by omega, by rw [← Option.some.inj h]⟩

theorem resized_kept (fl : Floats F) (n : ℕ) (t : Aufhsm F) {i : ℕ} {w : Wmark F} (hi : i < n)
    (h : t.wmark[i]? = some w) : (resized fl n t).wmark[i]? = some w := by
  have hlt := (List.getElem?_eq_some_iff.1 h).1
  rw [resized, List.getElem?_append_left (by rw [List.length_take]; omega), List.getElem?_take_of_lt hi, h]

theorem resized_ge (fl : Floats F) (n : ℕ) (t : Aufhsm F) (h : ∀ x ∈ t.brids, -1 ≤ x) :
    ∀ w ∈ (resized fl n t).wmark, -1 ≤ w.brid := by
  intro w hw
  obtain ⟨i, hi⟩ := List.mem_iff_getElem?.1 hw
  rcases resized_getElem? fl n t hi with ⟨-, hi⟩ | ⟨-, hw⟩
  · exact h w.brid (List.mem_map_of_mem (List.mem_of_getElem? hi))
  · omega

/-- **What a successful call leaves.** Without a table: a new one with the ids of the FHSM branches. With one: what
fhsm_invalid and fhsm_reinit make of the resized table. In both cases sorted and signed. -/
theorem au_fhsm_spec (fl : Floats F) (qs : Qsort bridOrd (Wmark.brid (F := F))) (sys : ShmSys)
    (s : Option (Aufhsm F)) (B : Branches) (hs : ∀ p, s = some p → ∀ x ∈ p.brids, -1 ≤ x) {u : Option (Aufhsm F)}
    (h : au_fhsm fl qs sys s B.nfhsm B.brinfo = .ret 0 u) :
    ∃ t, u = some t ∧ t.brids.Pairwise (· ≤ ·) ∧
      ((s = none ∧ t.brids.Perm B.ids) ∨
        ∃ p, s = some p ∧ Refreshed fl (resized fl B.nfhsm p).wmark B t.wmark) := by
  cases s with
  | none =>
    unfold au_fhsm at h
    dsimp only at h
    split_ifs at h
    · simp at h
    · simp only [Res.ret.injEq, true_and] at h
      refine ⟨_, h.symm, sort_pairwise qs _, Or.inl ⟨rfl, ?_⟩⟩
      rw [← create_brids fl B]
      exact sort_brids_perm qs _
  | some p =>
    by_cases hmv : sys.map = true ∧ au_fhsm_sign_verify fl p = true
    · obtain ⟨R, hR, href⟩ := refresh_spec fl B (resized fl B.nfhsm p) (resized_length fl _ p)
        (resized_ge fl _ p (hs p rfl))
      rcases au_fhsm_some_cases fl qs sys p B.nfhsm B.brinfo hmv.1 hmv.2 with
        ⟨-, hf⟩ | ⟨-, hf | hf | ⟨-, hf⟩ | ⟨-, hf⟩⟩
      · rw [hf] at h
        simp at h
      · rw [hf] at h
        simp at h
      · rw [hf] at h
        simp at h
      · rw [hf] at h
        simp at h
      · rw [hf, hR] at h
        simp only [Res.ret.injEq, true_and] at h
        exact ⟨_, h.symm, sort_pairwise qs _, Or.inr ⟨p, rfl, href.perm (qs.perm R)⟩⟩
    · unfold au_fhsm at h
      have hbad : (!sys.map || !au_fhsm_sign_verify fl p) = true := by
        cases hm : sys.map <;> cases hv : au_fhsm_sign_verify fl p <;> simp_all
      simp [hbad] at h

/-! ## Every history -/

theorem filter_ne_of_nonneg {l : List ℤ} (h : ∀ x ∈ l, 0 ≤ x) : l.filter (· ≠ -1) = l := by
  rw [List.filter_eq_self]
  intro x hx
  have := h x hx
  simp only [ne_eq, decide_eq_true_eq]
  omega

theorem step_ok (fl : Floats F) (qs : Qsort bridOrd (Wmark.brid (F := F))) (bp : Bsearch strcmp Brinfo.path)
    (s : Option (Aufhsm F)) (op : TableOp) (u : Option (Aufhsm F)) (hs : ∀ t, s = some t → TableOk t)
    (h : table_step fl qs bp s op = some u) : ∀ t, u = some t → TableOk t := by
  cases op with
  | fhsm sys B =>
    have hret : au_fhsm fl qs sys s B.nfhsm B.brinfo = .ret 0 u := by
      simp only [table_step] at h
      split at h
      · rename_i err v hf
        split_ifs at h with herr
        rw [hf, herr, Option.some.inj h]
      · simp at h
    obtain ⟨t, rfl, hsort, hcase⟩ := au_fhsm_spec fl qs sys s B (fun p hp => (hs p hp).ge) hret
    intro t' ht'
    obtain rfl := Option.some.inj ht'
    rcases hcase with ⟨-, hp⟩ | ⟨p, -, href⟩
    · have hnn : ∀ x ∈ t.brids, 0 ≤ x := fun x hx => B.ids_nonneg (hp.mem_iff.1 hx)
      refine ⟨hsort, fun x hx => by have := hnn x hx; omega, ?_⟩
      rw [filter_ne_of_nonneg hnn]
      exact hp.nodup_iff.2 B.ids_nodup
    · refine ⟨hsort, ?_, href.uniq⟩
      intro x hx
      obtain ⟨w, hw, rfl⟩ := List.mem_map.1 hx
      rcases href.sub w hw with h1 | ⟨i, b, hb, -, -, hbw⟩
      · omega
      · have := B.nonneg b (List.mem_of_getElem? hb)
        omega
  | wmark inode str brinfo =>
    cases s with
    | none => simp [table_step] at h
    | some t =>
      simp only [table_step, Option.some.injEq] at h
      subst h
      intro t' ht'
      obtain rfl := Option.some.inj ht'
      have hids : ((wmark fl bp inode str t brinfo).getD t).brids = t.brids := by
        rcases wmark_cases fl bp inode brinfo str t with ⟨-, hw⟩ | ⟨-, ws, hw, hws⟩
        · rw [hw]
          rfl
        · rw [hw]
          exact brids_of_put inode _ hws
      have := hs t rfl
      exact ⟨hids ▸ this.sorted, hids ▸ this.ge, hids ▸ this.uniq⟩
  | sign =>
    cases s with
    | none => simp [table_step] at h
    | some t =>
      simp only [table_step, Option.some.injEq] at h
      subst h
      intro t' ht'
      obtain rfl := Option.some.inj ht'
      have := hs t rfl
      exact ⟨this.sorted, this.ge, this.uniq⟩

/-- every table a history leaves -/
theorem table_ok (fl : Floats F) (qs : Qsort bridOrd (Wmark.brid (F := F))) (bp : Bsearch strcmp Brinfo.path)
    {ops : List TableOp} {s : Option (Aufhsm F)} (h : exec (table_step fl qs bp) none ops = some s) :
    ∀ t, s = some t → TableOk t :=
  exec_invariant (table_step fl qs bp) (fun s => ∀ t, s = some t → TableOk t) (step_ok fl qs bp)
    (fun t ht => by simp at ht) h

/-- a brid of its own determines the record -/
theorem uniq_index {wm : List (Wmark F)} (h : ((wm.map Wmark.brid).filter (· ≠ -1)).Nodup) {i j : ℕ} {w v : Wmark F}
    (hi : wm[i]? = some w) (hj : wm[j]? = some v) (hwv : w.brid = v.brid) (hw : w.brid ≠ -1) : i = j := by
  rw [List.Nodup, List.pairwise_filter, List.pairwise_map, List.pairwise_iff_getElem] at h
  obtain ⟨hil, rfl⟩ := List.getElem?_eq_some_iff.1 hi
  obtain ⟨hjl, rfl⟩ := List.getElem?_eq_some_iff.1 hj
  rcases Nat.lt_trichotomy i j with hij | hij | hij
  · exact absurd hwv (h i j hil hjl hij (by simpa using hw) (by simpa [← hwv] using hw))
  · exact hij
  · exact absurd hwv.symm (h j i hjl hil hij (by simpa [← hwv] using hw) (by simpa using hw))

/-- **Binary and linear search.** In every table that any history of au_fhsm calls and watermark arguments leaves, the
records are in ascending order, no non-negative brid occurs twice, and for every non-negative brid the daemon's search
returns the record that the controller's returns, or both find none. -/
theorem search_agrees (fl : Floats F) (qs : Qsort bridOrd (Wmark.brid (F := F))) (bp : Bsearch strcmp Brinfo.path)
    (bs : Bsearch bridOrd (Wmark.brid (F := F))) (ops : List TableOp) (t : Aufhsm F)
    (h : exec (table_step fl qs bp) none ops = some (some t)) :
    t.brids.Pairwise (· ≤ ·) ∧ (t.brids.filter (0 ≤ ·)).Nodup ∧
      ∀ brid : ℤ, 0 ≤ brid → au_wm_search_brid bs brid t = au_wm_lfind brid t.wmark := by
  have hok := table_ok fl qs bp h t rfl
  have hfilter : t.brids.filter (0 ≤ ·) = t.brids.filter (· ≠ -1) := by
    apply List.filter_congr
    intro x hx
    have := hok.ge x hx
    simp only [ne_eq, decide_eq_decide]
    omega
  refine ⟨hok.sorted, hfilter ▸ hok.uniq, ?_⟩
  intro brid hb
  refine bs.eq_findIdx brid t.wmark ?_ ?_
  · have hsorted := hok.sorted
    rw [Aufhsm.brids, List.pairwise_map] at hsorted
    exact hsorted.imp fun {a b} hab => by simpa [Le, Std.isLE_compare] using hab
  · intro i j w v hi hj hw hv
    exact uniq_index hok.uniq hi hj (hw.trans hv.symm) (by omega)

/-- a branch array whose first branch is no FHSM branch -/
def skewed : Branches where
  brinfo := [⟨0, 0, [47, 97]⟩, ⟨1, AuBrAttr_FHSM, [47, 98]⟩, ⟨2, AuBrAttr_FHSM, [47, 99]⟩]
  distinct := by decide
  nonneg := by decide

/-- the table of the first run with these branches -/
def skewedTable : Aufhsm ℚ :=
  au_fhsm_sign ratFloats ⟨[], 0, [⟨1, (0, 0), (1 / 4, 1 / 2), (1, 1)⟩, ⟨2, (0, 0), (1 / 4, 1 / 2), (1, 1)⟩]⟩

/-- the table of the second run: the record of branch 2 is free -/
def skewedAgain : Aufhsm ℚ :=
  au_fhsm_sign ratFloats ⟨[], 0, [⟨-1, (0, 0), (1 / 4, 1 / 2), (1, 1)⟩, ⟨1, (0, 0), (1 / 4, 1 / 2), (1, 1)⟩]⟩

/-- a table with a free record in front -/
theorem search_agrees_skewed :
    exec (table_step ratFloats bridSort pathSearch) none [.fhsm allOk skewed, .fhsm allOk skewed] =
        some (some skewedAgain) ∧
      skewedAgain.brids.Pairwise (· ≤ ·) ∧ (skewedAgain.brids.filter (0 ≤ ·)).Nodup ∧
      ∀ brid : ℤ, 0 ≤ brid → au_wm_search_brid (Bsearch.linear bridOrd Wmark.brid) brid skewedAgain =
        au_wm_lfind brid skewedAgain.wmark := by
  have h : exec (table_step ratFloats bridSort pathSearch) none [.fhsm allOk skewed, .fhsm allOk skewed] =
      some (some skewedAgain) := by decide +kernel
  exact ⟨h, search_agrees ratFloats bridSort pathSearch _ _ skewedAgain h⟩

/-! ## Does the table describe the FHSM branches? -/

/-- the brids are the ids of the FHSM branches, each once, in ascending order, and no record is free -/
structure Exact (t : Aufhsm F) (B : Branches) : Prop where
  ascending : t.brids.Pairwise (· < ·)
  ids : ∀ x, x ∈ t.brids ↔ ∃ b ∈ B.brinfo, b.fhsm = true ∧ b.id = x
  noFree : ∀ x ∈ t.brids, x ≠ -1

theorem exact_of_perm {t : Aufhsm F} {B : Branches} (hs : t.brids.Pairwise (· ≤ ·)) (hp : t.brids.Perm B.ids) :
    Exact t B := by
  have hnd : t.brids.Nodup := hp.nodup_iff.2 B.ids_nodup
  refine ⟨?_, fun x => by rw [hp.mem_iff, B.mem_ids], fun x hx => ?_⟩
  · exact (hs.and hnd).imp fun {a b} ⟨hle, hne⟩ => lt_of_le_of_ne hle hne
  · have := B.ids_nonneg (hp.mem_iff.1 hx)
    omega

/-- the first nfhsm entries of the branch array are all FHSM branches -/
def Branches.Leading (B : Branches) : Prop := ∀ b ∈ B.brinfo.take B.nfhsm, b.fhsm = true

/-- there is no other FHSM branch then, and conversely -/
theorem Branches.leading_iff (B : Branches) : B.Leading ↔ ∀ b ∈ B.brinfo.drop B.nfhsm, b.fhsm = false := by
  have hsplit : (B.brinfo.take B.nfhsm).countP Brinfo.fhsm + (B.brinfo.drop B.nfhsm).countP Brinfo.fhsm = B.nfhsm := by
    rw [← List.countP_append, List.take_append_drop]
    rfl
  have hlen : (B.brinfo.take B.nfhsm).length = B.nfhsm := by
    rw [List.length_take]
    have := B.nfhsm_le
    omega
  have hall := List.countP_eq_length (p := Brinfo.fhsm) (l := B.brinfo.take B.nfhsm)
  have hnone := List.countP_eq_zero (p := Brinfo.fhsm) (l := B.brinfo.drop B.nfhsm)
  unfold Branches.Leading
  rw [← hall]
  simp only [← Bool.not_eq_true]
  rw [← hnone]
  omega

/-- it is enough that every FHSM branch is among the first -/
theorem Branches.leading_of_index (B : Branches)
    (h : ∀ i b, B.brinfo[i]? = some b → b.fhsm = true → i < B.nfhsm) : B.Leading := by
  rw [B.leading_iff]
  intro b hb
  by_contra hf
  have hf' : b.fhsm = true := by simpa using hf
  obtain ⟨i, hi⟩ := List.mem_iff_getElem?.1 hb
  rw [List.getElem?_drop] at hi
  have := h _ b hi hf'
  omega

/-- a re-run describes the branches exactly if the FHSM branches come first -/
theorem refreshed_exact_iff {fl : Floats F} {T : List (Wmark F)} {B : Branches} {t : Aufhsm F}
    (hT : T.length = B.nfhsm) (hs : t.brids.Pairwise (· ≤ ·)) (h : Refreshed fl T B t.wmark) :
    Exact t B ↔ B.Leading := by
  refine ⟨?_, fun hlead => exact_of_perm hs ?_⟩
  · intro hex
    -- every FHSM branch has a record, and records come from the first nfhsm branches
    refine B.leading_of_index fun i b hi hf => ?_
    have hmem : b.id ∈ t.brids := (hex.ids b.id).2 ⟨b, List.mem_of_getElem? hi, hf, rfl⟩
    obtain ⟨w, hw, hwb⟩ := List.mem_map.1 hmem
    rcases h.sub w hw with h1 | ⟨j, c, hc, hj, -, hcw⟩
    · exact absurd (hwb.symm.trans h1) (hex.noFree b.id hmem)
    · have := B.index_unique hc hi (hcw.trans hwb)
      omega
  · -- nfhsm distinct ids in a table of nfhsm records
    have hsub : B.ids ⊆ t.brids := by
      intro x hx
      obtain ⟨b, hb, hf, rfl⟩ := (B.mem_ids x).1 hx
      obtain ⟨i, hi⟩ := List.mem_iff_getElem?.1 hb
      have hlt : i < T.length := by
        by_contra hge
        have hdrop : b ∈ B.brinfo.drop B.nfhsm := by
          refine List.mem_iff_getElem?.2 ⟨i - B.nfhsm, ?_⟩
          rw [List.getElem?_drop, show B.nfhsm + (i - B.nfhsm) = i by omega, hi]
        simp [B.leading_iff.1 hlead b hdrop] at hf
      obtain ⟨w, hw, hwb⟩ := h.has hi hlt hf
      exact hwb ▸ List.mem_map_of_mem hw
    have hlen : t.brids.length ≤ B.ids.length := by
      rw [B.ids_length, Aufhsm.brids, List.length_map, h.len, hT]
    exact ((List.subperm_of_subset B.ids_nodup hsub).perm_of_length_le hlen).symm

/-- **Exactness after au_fhsm.** From every state that a history leaves, and for every branch array, a successful call
leaves a table that describes exactly the FHSM branches if and only if there was no table before or the FHSM branches
are the first ones of the array. -/
theorem table_exact_iff (fl : Floats F) (qs : Qsort bridOrd (Wmark.brid (F := F))) (bp : Bsearch strcmp Brinfo.path)
    (ops : List TableOp) (s : Option (Aufhsm F)) (hs : exec (table_step fl qs bp) none ops = some s) (sys : ShmSys)
    (B : Branches) (t : Aufhsm F) (h : au_fhsm fl qs sys s B.nfhsm B.brinfo = .ret 0 (some t)) :
    Exact t B ↔ s = none ∨ B.Leading := by
  have hok := table_ok fl qs bp hs
  obtain ⟨t', ht', hsort, hcase⟩ := au_fhsm_spec fl qs sys s B (fun p hp => (hok p hp).ge) h
  obtain rfl := Option.some.inj ht'
  rcases hcase with ⟨rfl, hp⟩ | ⟨p, rfl, href⟩
  · exact ⟨fun _ => Or.inl rfl, fun _ => exact_of_perm hsort hp⟩
  · rw [refreshed_exact_iff (resized_length fl _ p) hsort href]
    simp

/-- the branches of `twoFhsm` -/
def two : Branches where
  brinfo := twoFhsm
  distinct := by decide
  nonneg := by decide

/-- two FHSM branches and nothing else: the re-run is exact -/
theorem table_exact_iff_two :
    ∃ t, au_fhsm ratFloats bridSort allOk (some twoTable) two.nfhsm two.brinfo = .ret 0 (some t) ∧ Exact t two := by
  have hs : exec (table_step ratFloats bridSort pathSearch) none [.fhsm allOk two] = some (some twoTable) := by
    decide +kernel
  have h : au_fhsm ratFloats bridSort allOk (some twoTable) two.nfhsm two.brinfo = .ret 0 (some twoTable) := by
    decide +kernel
  have hlead : two.Leading := by
    unfold Branches.Leading
    decide
  exact ⟨twoTable, h, (table_exact_iff ratFloats bridSort pathSearch _ _ hs allOk two twoTable h).2 (Or.inr hlead)⟩

/-- **A branch without a record.** Branch 0 is no FHSM branch, 1 and 2 are. The controller runs twice: the second run
leaves one record for branch 1 and a free one. -/
theorem table_not_exact :
    exec (table_step ratFloats bridSort pathSearch) none [.fhsm allOk skewed] = some (some skewedTable) ∧
      2 ≤ skewed.nfhsm ∧
      au_fhsm ratFloats bridSort allOk (some skewedTable) skewed.nfhsm skewed.brinfo = .ret 0 (some skewedAgain) ∧
      ¬ Exact skewedAgain skewed := by
  refine ⟨by decide +kernel, by decide, by decide +kernel, fun h => ?_⟩
  exact h.noFree (-1) (by decide +kernel) rfl

/-! ## Does a re-run keep the watermarks? -/

/-- every branch with a record in T that is an FHSM branch has a record in t, with the same watermarks -/
def Keeps (T t : Aufhsm F) (B : Branches) : Prop :=
  ∀ w ∈ T.wmark, w.brid ∈ B.ids →
    w.brid ∈ t.brids ∧ ∀ v ∈ t.wmark, v.brid = w.brid → v.block = w.block ∧ v.inode = w.inode

/-- every FHSM branch with a record in T is among the first nfhsm branches, and its record stands at the index of the
branch or holds just the watermarks that a new record would get there -/
def InPlace (fl : Floats F) (T : Aufhsm F) (B : Branches) : Prop :=
  ∀ (k m : ℕ) (w : Wmark F) (b : Brinfo), T.wmark[k]? = some w → B.brinfo[m]? = some b → b.fhsm = true →
    b.id = w.brid → m < B.nfhsm ∧ (k = m ∨ (w.block, w.inode) = inherited fl T.wmark B.brinfo m)

/-- what the table says, padding apart -/
def Aufhsm.records (t : Aufhsm F) : List (ℤ × (F × F) × (F × F)) := t.wmark.map fun w => (w.brid, w.block, w.inode)

section Keep

variable {fl : Floats F} {T : Aufhsm F} {B : Branches}

theorem resized_keptAt {n i : ℕ} (hi : i < n) :
    KeptAt (resized fl n T).wmark B.brinfo i ↔ KeptAt T.wmark B.brinfo i := by
  refine ⟨?_, fun ⟨w, b, hw, hb, hwb⟩ => ⟨w, b, resized_kept fl n T hi hw, hb, hwb⟩⟩
  rintro ⟨w, b, hw, hb, hwb⟩
  rcases resized_getElem? fl n T hw with ⟨-, hw⟩ | ⟨-, hw1⟩
  · exact ⟨w, b, hw, hb, hwb⟩
  · have := B.nonneg b (List.mem_of_getElem? hb)
    omega

/-- the resize does not change what a new record inherits -/
theorem resized_inherited {n m : ℕ} (hm : m ≤ n) :
    inherited fl (resized fl n T).wmark B.brinfo m = inherited fl T.wmark B.brinfo m := by
  have hprev : ∀ j ≤ n, prevOf (resized fl n T).wmark B.brinfo j = prevOf T.wmark B.brinfo j := by
    intro j
    induction j with
    | zero => intro _; rfl
    | succ j ih =>
      intro hj
      have hkept : fhsmKept (resized fl n T).wmark B.brinfo j = fhsmKept T.wmark B.brinfo j := by
        cases hb : B.brinfo[j]? with
        | none => simp [fhsmKept, hb]
        | some b => rw [Bool.eq_iff_iff, fhsmKept_iff _ hb, fhsmKept_iff _ hb, resized_keptAt (by omega)]
      rw [prevOf, prevOf, hkept, ih (by omega)]
  unfold inherited
  rw [hprev m hm]
  cases hp : prevOf T.wmark B.brinfo m with
  | none => rfl
  | some j =>
    obtain ⟨hjm, w, b, hw, -⟩ := prevOf_kept T.wmark m j hp
    simp only [Option.bind_some, hw, resized_kept fl n T (show j < n by omega) hw]

theorem uniq_mem {wm : List (Wmark F)} (h : ((wm.map Wmark.brid).filter (· ≠ -1)).Nodup) {w v : Wmark F} (hw : w ∈ wm)
    (hv : v ∈ wm) (hwv : w.brid = v.brid) (hne : w.brid ≠ -1) : w = v := by
  obtain ⟨i, hi⟩ := List.mem_iff_getElem?.1 hw
  obtain ⟨j, hj⟩ := List.mem_iff_getElem?.1 hv
  obtain rfl := uniq_index h hi hj hwv hne
  exact Option.some.inj (hi.symm.trans hj)

/-- where the record of branch m does not stand at index m, a new one is made -/
theorem refreshed_moved {t : Aufhsm F} (hT : TableOk T) (h : Refreshed fl (resized fl B.nfhsm T).wmark B t.wmark)
    {k m : ℕ} {w : Wmark F} {b : Brinfo} (hw : T.wmark[k]? = some w) (hb : B.brinfo[m]? = some b)
    (hf : b.fhsm = true) (hbw : b.id = w.brid) (hm : m < B.nfhsm) (hkm : k ≠ m) :
    ∃ v ∈ t.wmark, v.brid = w.brid ∧ (v.block, v.inode) = inherited fl T.wmark B.brinfo m := by
  have hnn := B.nonneg b (List.mem_of_getElem? hb)
  have hlen : m < (resized fl B.nfhsm T).wmark.length := by
    rw [show (resized fl B.nfhsm T).wmark.length = B.nfhsm from resized_length fl _ T]
    exact hm
  have hnot : ¬ KeptAt (resized fl B.nfhsm T).wmark B.brinfo m := by
    rw [resized_keptAt hm]
    intro ⟨v, c, hv, hc, hvc⟩
    rw [hb, Option.some.injEq] at hc
    subst hc
    exact hkm (uniq_index hT.uniq hw hv (by rw [hvc, hbw]) (by omega))
  obtain ⟨v, hv, hvb, hvm⟩ := h.fill m b hb hlen hf hnot
  exact ⟨v, hv, hvb.trans hbw, by rw [hvm, resized_inherited (by omega)]⟩

theorem keeps_iff {t : Aufhsm F} (hT : TableOk T) (h : Refreshed fl (resized fl B.nfhsm T).wmark B t.wmark) :
    Keeps T t B ↔ InPlace fl T B := by
  refine ⟨?_, ?_⟩
  · intro hk k m w b hw hb hf hbw
    have hmemB : w.brid ∈ B.ids := (B.mem_ids _).2 ⟨b, List.mem_of_getElem? hb, hf, hbw⟩
    obtain ⟨hmem, hall⟩ := hk w (List.mem_of_getElem? hw) hmemB
    have hm : m < B.nfhsm := by
      obtain ⟨v, hv, hvw⟩ := List.mem_map.1 hmem
      have hnn := B.ids_nonneg hmemB
      rcases h.sub v hv with h1 | ⟨i, c, hc, hi, -, hcv⟩
      · omega
      · rw [show (resized fl B.nfhsm T).wmark.length = B.nfhsm from resized_length fl _ T] at hi
        obtain rfl := B.index_unique hc hb (by rw [hcv, hvw, hbw])
        exact hi
    refine ⟨hm, ?_⟩
    by_cases hkm : k = m
    · exact Or.inl hkm
    · obtain ⟨v, hv, hvw, hvm⟩ := refreshed_moved hT h hw hb hf hbw hm hkm
      obtain ⟨h1, h2⟩ := hall v hv hvw
      exact Or.inr (by rw [← hvm, h1, h2])
  · intro hip w hw hid
    obtain ⟨b, hb, hf, hbw⟩ := (B.mem_ids _).1 hid
    obtain ⟨k, hk⟩ := List.mem_iff_getElem?.1 hw
    obtain ⟨m, hm⟩ := List.mem_iff_getElem?.1 hb
    have hnn := B.ids_nonneg hid
    -- one record of the new table has the brid and the watermarks, and no other has the brid
    have hone : ∃ v ∈ t.wmark, v.brid = w.brid ∧ (v.block, v.inode) = (w.block, w.inode) := by
      obtain ⟨hlt, rfl | hmarks⟩ := hip k m w b hk hm hf hbw
      · have hres := resized_kept fl B.nfhsm T hlt hk
        exact ⟨w, h.keep k w hres ⟨w, b, hres, hm, hbw.symm⟩, rfl, rfl⟩
      · by_cases hkm : k = m
        · subst hkm
          have hres := resized_kept fl B.nfhsm T hlt hk
          exact ⟨w, h.keep k w hres ⟨w, b, hres, hm, hbw.symm⟩, rfl, rfl⟩
        · obtain ⟨v, hv, hvw, hvm⟩ := refreshed_moved hT h hk hm hf hbw hlt hkm
          exact ⟨v, hv, hvw, hvm.trans hmarks.symm⟩
    obtain ⟨v, hv, hvw, hvm⟩ := hone
    refine ⟨hvw ▸ List.mem_map_of_mem hv, fun u hu huw => ?_⟩
    obtain rfl := uniq_mem h.uniq hu hv (huw.trans hvw.symm) (by omega)
    exact Prod.mk.inj hvm

theorem exact_brids_eq {t : Aufhsm F} (hT : Exact T B) (ht : Exact t B) : t.brids = T.brids := by
  have hperm : t.brids.Perm T.brids := by
    rw [List.perm_ext_iff_of_nodup (ht.ascending.imp ne_of_lt) (hT.ascending.imp ne_of_lt)]
    exact fun x => (ht.ids x).trans (hT.ids x).symm
  exact hperm.eq_of_pairwise (fun a b _ _ hab hba => absurd hab (lt_asymm hba)) ht.ascending hT.ascending

/-- two tables that describe the branches and agree on their watermarks are the same -/
theorem records_eq_of_keeps {t : Aufhsm F} (hT : Exact T B) (ht : Exact t B) (hk : Keeps T t B) :
    t.records = T.records := by
  have hids := exact_brids_eq hT ht
  apply List.ext_getElem?
  intro i
  have hi : (t.wmark[i]?).map Wmark.brid = (T.wmark[i]?).map Wmark.brid := by
    rw [← List.getElem?_map, ← List.getElem?_map]
    exact congrArg (·[i]?) hids
  rw [Aufhsm.records, Aufhsm.records, List.getElem?_map, List.getElem?_map]
  cases hw : T.wmark[i]? with
  | none =>
    rw [hw, Option.map_none, Option.map_eq_none_iff] at hi
    rw [hi]
  | some w =>
    rw [hw, Option.map_some, Option.map_eq_some_iff] at hi
    obtain ⟨v, hv, hvw⟩ := hi
    have hmem := List.mem_of_getElem? hw
    have hB : w.brid ∈ B.ids := (B.mem_ids _).2 ((hT.ids _).1 (List.mem_map_of_mem hmem))
    obtain ⟨h1, h2⟩ := (hk w hmem hB).2 v (List.mem_of_getElem? hv) hvw
    rw [hv, Option.map_some, Option.map_some, hvw, h1, h2]

theorem keeps_of_records_eq {t : Aufhsm F} (hT : TableOk T) (h : t.records = T.records) : Keeps T t B := by
  have hids : t.brids = T.brids := by
    have hfst : t.records.map Prod.fst = T.records.map Prod.fst := congrArg (List.map Prod.fst) h
    rw [Aufhsm.records, Aufhsm.records, List.map_map, List.map_map] at hfst
    exact hfst
  intro w hw hB
  refine ⟨hids ▸ List.mem_map_of_mem hw, ?_⟩
  intro v hv hvw
  have hmem : (v.brid, v.block, v.inode) ∈ T.records := h ▸ List.mem_map_of_mem hv
  obtain ⟨u, hu, huv⟩ := List.mem_map.1 hmem
  simp only [Prod.mk.injEq] at huv
  obtain ⟨h0, h1, h2⟩ := huv
  have hnn := B.ids_nonneg hB
  obtain rfl := uniq_mem hT.uniq hu hw (h0.trans hvw) (by omega)
  exact ⟨h1.symm, h2.symm⟩

/-- in a table that describes the branches, records in place mean FHSM branches in front -/
theorem leading_of_inPlace (hT : Exact T B) (hip : InPlace fl T B) : B.Leading := by
  refine B.leading_of_index fun i b hi hf => ?_
  obtain ⟨w, hw, hwb⟩ := List.mem_map.1 ((hT.ids b.id).2 ⟨b, List.mem_of_getElem? hi, hf, rfl⟩)
  obtain ⟨k, hk⟩ := List.mem_iff_getElem?.1 hw
  exact (hip k _ w b hk hi hf hwb.symm).1

end Keep

/-- **The user's watermarks across a re-run.** From every table that a history leaves, for every branch array: a
successful call keeps the watermarks of all branches that are still FHSM branches if and only if every such branch is
in place. If the table described the branches (they are unchanged), it is left unchanged under the same condition. -/
theorem marks_kept_iff (fl : Floats F) (qs : Qsort bridOrd (Wmark.brid (F := F))) (bp : Bsearch strcmp Brinfo.path)
    (ops : List TableOp) (T : Aufhsm F) (hs : exec (table_step fl qs bp) none ops = some (some T)) (sys : ShmSys)
    (B : Branches) (t : Aufhsm F) (h : au_fhsm fl qs sys (some T) B.nfhsm B.brinfo = .ret 0 (some t)) :
    (Keeps T t B ↔ InPlace fl T B) ∧ (Exact T B → (t.records = T.records ↔ InPlace fl T B)) := by
  have hok := table_ok fl qs bp hs T rfl
  obtain ⟨t', ht', hsort, hcase⟩ := au_fhsm_spec fl qs sys (some T) B (fun p hp => by cases hp; exact hok.ge) h
  obtain rfl := Option.some.inj ht'
  rcases hcase with ⟨hnone, -⟩ | ⟨p, hp, href⟩
  · cases hnone
  · obtain rfl := Option.some.inj hp
    have hiff := keeps_iff hok href
    refine ⟨hiff, fun hex => ⟨fun hrec => hiff.1 (keeps_of_records_eq hok hrec), ?_⟩⟩
    intro hip
    have hext := (refreshed_exact_iff (resized_length fl _ T) hsort href).2 (leading_of_inPlace hex hip)
    exact records_eq_of_keeps hex hext (hiff.2 hip)

/-- the watermarks `50-25` for both branches, signed -/
def userTable : Aufhsm ℚ :=
  au_fhsm_sign ratFloats ⟨[], 0, [⟨0, (0, 0), (1 / 2, 3 / 4), (1, 1)⟩, ⟨1, (0, 0), (1 / 2, 3 / 4), (1, 1)⟩]⟩

/-- a run with `50-25`, and one without arguments -/
theorem marks_kept_iff_two :
    exec (table_step ratFloats bridSort pathSearch) none
        [.fhsm allOk two, .wmark false [53, 48, 45, 50, 53] two.brinfo, .sign] = some (some userTable) ∧
      au_fhsm ratFloats bridSort allOk (some userTable) two.nfhsm two.brinfo = .ret 0 (some userTable) ∧
      (Keeps userTable userTable two ↔ InPlace ratFloats userTable two) := by
  have hs : exec (table_step ratFloats bridSort pathSearch) none
      [.fhsm allOk two, .wmark false [53, 48, 45, 50, 53] two.brinfo, .sign] = some (some userTable) := by
    decide +kernel
  have h : au_fhsm ratFloats bridSort allOk (some userTable) two.nfhsm two.brinfo = .ret 0 (some userTable) := by
    decide +kernel
  exact ⟨hs, h, (marks_kept_iff ratFloats bridSort pathSearch _ _ hs allOk two userTable h).1⟩

/-- the same two branches, in the other order -/
def swapped : Branches where
  brinfo := [⟨1, AuBrAttr_FHSM, [47, 98]⟩, ⟨0, AuBrAttr_FHSM, [47, 97]⟩]
  distinct := by decide
  nonneg := by decide

/-- **Watermarks lost.** The branches are 1 and 0, in this order and in both runs. The user sets `50-25` in the first
run; the second one, without arguments, puts the defaults back. -/
theorem marks_lost :
    exec (table_step ratFloats bridSort pathSearch) none
        [.fhsm allOk swapped, .wmark false [53, 48, 45, 50, 53] swapped.brinfo, .sign] = some (some userTable) ∧
      2 ≤ swapped.nfhsm ∧
      au_fhsm ratFloats bridSort allOk (some userTable) swapped.nfhsm swapped.brinfo = .ret 0 (some twoTable) ∧
      ¬ Keeps userTable twoTable swapped ∧ twoTable.records ≠ userTable.records := by
  refine ⟨by decide +kernel, by decide, by decide +kernel, ?_, by decide +kernel⟩
  unfold Keeps
  decide +kernel

end AufsUtil.Fhsm
