/-
The mapping behind a resize of the table: fhsm_shrink and fhsm_expand of `fhsm/fhsm.c`, in bytes.

Both set the size of the shared-memory file, remap it, and store into the new mapping. mremap(2) takes the old size and
the new one; both functions pass (len, cur_len), that is, the new size of the table as the old one. What is mapped is
the last argument, rounded up to whole pages, and the pages behind it are unmapped: a store there is a fault, and the
function does not return.

What the model keeps of C: the sizes of the file and of the mapping, and every store with its offset from the start of
the mapping. The ftruncate that undoes a resize is taken to succeed.

- `expand_dies_iff`: when fhsm_expand faults.
- `expand_covered_iff`, `shrink_covered`: the two functions.
- `resize_covered_iff`: a shrunk table is always mapped; an expanded one exactly if it fits into the pages of the old
  one. If fhsm_expand returns where it does not fit, just the last record is cut off behind its brid.
- `resize_fault_iff`, `resize_err`: au_fhsm of `Fhsm/Table.lean` faults, and returns, accordingly.
-/
import Mathlib.Tactic
import AufsUtil.Fhsm.Table

namespace AufsUtil.Fhsm.Resize

variable {F : Type}

/-- what a resize leaves: its return value, the size of the file, the bytes that are mapped, and the stores it made -/
structure Resized where
  err : ℤ
  file : ℕ
  map : ℕ
  stores : List (ℕ × ℕ)
deriving DecidableEq, Repr

/-- `mremap(fhsm, old_size, new_size, MREMAP_MAYMOVE)`: the bytes mapped -/
def mremap (sys : ShmSys) (_old_size new_size : ℕ) : Option ℕ := if sys.mremap then some (mapped sys new_size) else none

/-- the store of nwmark -/
def nwmark_store : ℕ × ℕ := (12, 4)

/-- the store of the brid of record i -/
def brid_store (i : ℕ) : ℕ × ℕ := (16 + i * 20, 2)

/-- the stores into the new mapping; `none` is a fault -/
def store_all (file map : ℕ) (stores : List (ℕ × ℕ)) : Option Resized :=
  if stores.all fun s => s.1 + s.2 ≤ map then some ⟨0, file, map, stores⟩ else none

def fhsm_shrink (sys : ShmSys) (file map nwmark nfhsm : ℕ) : Option Resized :=
  let cur_len := au_fhsm_size nwmark
  let len := au_fhsm_size nfhsm
  if !sys.ftruncate then some ⟨-1, file, map, []⟩
  else
    match mremap sys len cur_len with
    | some m => store_all len m [nwmark_store]
    | none => some ⟨-1, cur_len, map, []⟩

def fhsm_expand (sys : ShmSys) (file map nwmark nfhsm : ℕ) : Option Resized :=
  let cur_len := au_fhsm_size nwmark
  let len := au_fhsm_size nfhsm
  if !sys.ftruncate then some ⟨-1, file, map, []⟩
  else
    match mremap sys len cur_len with
    | some m => store_all len m ((List.range' nwmark (nfhsm - nwmark)).map brid_store ++ [nwmark_store])
    | none => some ⟨-1, cur_len, map, []⟩

/-- the call in au_fhsm -/
def resize (sys : ShmSys) (file map nwmark nfhsm : ℕ) : Option Resized :=
  if nwmark < nfhsm then fhsm_expand sys file map nwmark nfhsm else fhsm_shrink sys file map nwmark nfhsm

/-- if the function returns 0, the file has the size of n records, all of them are mapped, and so is all that was
stored -/
def Covered (n : ℕ) (o : Option Resized) : Prop :=
  ∀ r, o = some r → r.err = 0 → r.file = au_fhsm_size n ∧ au_fhsm_size n ≤ r.map ∧ ∀ s ∈ r.stores, s.1 + s.2 ≤ r.map

theorem covered_of_failed {n : ℕ} {r : Resized} (h : r.err = -1) : Covered n (some r) := by
  intro r' hr herr
  rw [← Option.some.inj hr, h] at herr
  exact absurd herr (by decide)

theorem store_all_none_iff {file map : ℕ} {stores : List (ℕ × ℕ)} :
    store_all file map stores = none ↔ ¬ ∀ s ∈ stores, s.1 + s.2 ≤ map := by
  rw [store_all, ite_eq_right_iff]
  simp

/-- what returns behind its stores is covered exactly if the table is mapped -/
theorem store_all_covered_iff {n map : ℕ} {stores : List (ℕ × ℕ)} :
    Covered n (store_all (au_fhsm_size n) map stores) ↔
      ((∀ s ∈ stores, s.1 + s.2 ≤ map) → au_fhsm_size n ≤ map) := by
  unfold store_all
  by_cases hin : ∀ s ∈ stores, s.1 + s.2 ≤ map
  · rw [if_pos (by simpa using hin)]
    constructor
    · exact fun hcov _ => (hcov _ rfl rfl).2.1
    · intro hfit r hr _
      rw [← Option.some.inj hr]
      exact ⟨rfl, hfit hin, hin⟩
  · rw [if_neg (by simpa using hin)]
    exact iff_of_true (fun _ hr => by cases hr) fun h => absurd h hin

/-- whole pages are at least what they are to hold -/
theorem le_mapped (sys : ShmSys) (hp : 0 < sys.pagesize) (n : ℕ) : n ≤ mapped sys n := by
  unfold mapped
  have hdiv := Nat.div_add_mod (n + sys.pagesize - 1) sys.pagesize
  have hmod := Nat.mod_lt (n + sys.pagesize - 1) hp
  rw [Nat.mul_comm]
  omega

theorem shrink_covered {sys : ShmSys} (hp : 0 < sys.pagesize) (file map : ℕ) {c n : ℕ} (h : n ≤ c) :
    Covered n (fhsm_shrink sys file map c n) := by
  unfold fhsm_shrink mremap
  cases sys.ftruncate with
  | false => exact covered_of_failed rfl
  | true =>
    cases sys.mremap with
    | false => exact covered_of_failed rfl
    | true =>
      refine store_all_covered_iff.2 fun _ => ?_
      calc au_fhsm_size n ≤ au_fhsm_size c := by unfold au_fhsm_size; omega
        _ ≤ mapped sys (au_fhsm_size c) := le_mapped sys hp (au_fhsm_size c)

/-- the last of the stores that fhsm_expand makes is that of the last brid -/
theorem expand_stores_iff {c n map : ℕ} (h : c < n) :
    (∀ s ∈ (List.range' c (n - c)).map brid_store ++ [nwmark_store], s.1 + s.2 ≤ map) ↔
      au_fhsm_size (n - 1) + 2 ≤ map := by
  unfold au_fhsm_size
  constructor
  · intro hin
    have hlast := hin (brid_store (n - 1)) (List.mem_append_left _ (List.mem_map_of_mem (by
      rw [List.mem_range'_1]
      omega)))
    simp only [brid_store] at hlast
    omega
  · intro hlast s hs
    rcases List.mem_append.1 hs with hs | hs
    · obtain ⟨i, hi, rfl⟩ := List.mem_map.1 hs
      rw [List.mem_range'_1] at hi
      simp only [brid_store]
      omega
    · rw [List.mem_singleton.1 hs]
      simp only [nwmark_store]
      omega

theorem expand_covered_iff {sys : ShmSys} (file map : ℕ) {c n : ℕ} (h : c < n) :
    Covered n (fhsm_expand sys file map c n) ↔
      (sys.ftruncate = true → sys.mremap = true →
        au_fhsm_size n ≤ mapped sys (au_fhsm_size c) ∨ mapped sys (au_fhsm_size c) < au_fhsm_size (n - 1) + 2) := by
  unfold fhsm_expand mremap
  cases sys.ftruncate with
  | false => exact iff_of_true (covered_of_failed rfl) fun hf => absurd hf Bool.false_ne_true
  | true =>
    cases sys.mremap with
    | false => exact iff_of_true (covered_of_failed rfl) fun _ hf => absurd hf Bool.false_ne_true
    | true =>
      refine store_all_covered_iff.trans ?_
      rw [expand_stores_iff h]
      constructor
      · intro hfit _ _
        exact (le_or_gt (au_fhsm_size (n - 1) + 2) _).imp hfit id
      · intro hfit hin
        exact (hfit rfl rfl).resolve_right (not_lt.2 hin)

/-- **When fhsm_expand dies** in its loop: both calls succeed, and the last brid is behind the old pages. -/
theorem expand_dies_iff {sys : ShmSys} (file map : ℕ) {c n : ℕ} (h : c < n) :
    fhsm_expand sys file map c n = none ↔
      sys.ftruncate = true ∧ sys.mremap = true ∧ mapped sys (au_fhsm_size c) < au_fhsm_size (n - 1) + 2 := by
  unfold fhsm_expand mremap
  cases sys.ftruncate with
  | false => simp
  | true =>
    cases sys.mremap with
    | false => simp
    | true =>
      refine store_all_none_iff.trans ?_
      rw [expand_stores_iff h, not_le]
      simp

/-- **When a resized table is mapped.** For all counts: a shrunk one always; an expanded one exactly if a system call
fails, or the table fits into the pages of the old one, or fhsm_expand does not return, since the last brid is behind
them. -/
theorem resize_covered_iff (sys : ShmSys) (hp : 0 < sys.pagesize) (file map c n : ℕ) :
    (n ≤ c → Covered n (fhsm_shrink sys file map c n)) ∧
      (c < n → (Covered n (fhsm_expand sys file map c n) ↔
        (sys.ftruncate = true → sys.mremap = true →
          au_fhsm_size n ≤ mapped sys (au_fhsm_size c) ∨
            mapped sys (au_fhsm_size c) < au_fhsm_size (n - 1) + 2))) :=
  ⟨shrink_covered hp file map, expand_covered_iff file map⟩

/-- pages of 4096 bytes, and calls that succeed -/
def smallPages : ShmSys := ⟨true, true, true, true, 4096⟩

/-- a table is shrunk, one grows inside of its page, and one to the fourth byte of a third page -/
theorem resize_covered_iff_small :
    Covered 2 (fhsm_shrink smallPages 76 4096 3 2) ∧ Covered 204 (fhsm_expand smallPages 4076 4096 203 204) ∧
      ¬ Covered 409 (fhsm_expand smallPages 6016 8192 300 409) := by
  have hp : 0 < smallPages.pagesize := by decide
  refine ⟨(resize_covered_iff smallPages hp 76 4096 3 2).1 (by decide), ?_, fun hcov => ?_⟩
  · exact ((resize_covered_iff smallPages hp 4076 4096 203 204).2 (by decide)).2 fun _ _ => Or.inl (by decide)
  · have hfit := ((resize_covered_iff smallPages hp 6016 8192 300 409).2 (by decide)).1 hcov rfl rfl
    exact absurd hfit (by decide)

/-- from 300 to 409 branches: 8196 bytes of table, 8192 of them mapped, and fhsm_expand returns 0 -/
theorem expand_leaves_unmapped :
    (∃ r, fhsm_expand smallPages 6016 8192 300 409 = some r ∧ r.err = 0) ∧
      ¬ Covered 409 (fhsm_expand smallPages 6016 8192 300 409) := by
  constructor
  · have hlives : fhsm_expand smallPages 6016 8192 300 409 ≠ none := by
      rw [Ne, expand_dies_iff 6016 8192 (by decide)]
      decide
    obtain ⟨r, hr⟩ := Option.ne_none_iff_exists'.1 hlives
    refine ⟨r, hr, ?_⟩
    simp only [fhsm_expand, mremap, smallPages, store_all, Bool.not_true, Bool.false_eq_true, if_false,
      if_true, Option.ite_none_right_eq_some] at hr
    rw [← Option.some.inj hr.2]
  · intro hcov
    have hfit := (expand_covered_iff 6016 8192 (by decide)).1 hcov rfl rfl
    exact absurd hfit (by decide)

/-! ## The calls in au_fhsm -/

/-- a fault of au_fhsm is one in fhsm_expand, or a table that is not mapped, all of which it reads afterwards -/
theorem resize_fault_iff (fl : Floats F) (sys : ShmSys) (hp : 0 < sys.pagesize) (t : Aufhsm F) (file map n : ℕ) :
    fhsm_resize fl sys t n = none ↔
      resize sys file map t.nwmark n = none ∨ ¬ Covered n (resize sys file map t.nwmark n) := by
  unfold fhsm_resize resize
  by_cases hlt : t.nwmark < n
  · rw [if_pos hlt, if_pos hlt, expand_covered_iff file map hlt, expand_dies_iff file map hlt]
    unfold Fhsm.fhsm_expand
    cases sys.ftruncate with
    | false => simp
    | true =>
      cases sys.mremap with
      | false => simp
      | true =>
        simp only [Bool.not_true, Bool.or_false, Bool.false_eq_true, if_false, forall_const, true_and, not_or]
        split_ifs with hm
        · exact iff_of_true rfl (Or.inl hm)
        · simp [hm]
  · rw [if_neg hlt, if_neg hlt]
    refine iff_of_false (fun h => Option.some_ne_none _ h) (not_or.2 ⟨?_, not_not.2 (shrink_covered hp file map ?_)⟩)
    · have hstore : nwmark_store.1 + nwmark_store.2 ≤ mapped sys (au_fhsm_size t.nwmark) := calc
        nwmark_store.1 + nwmark_store.2 ≤ au_fhsm_size t.nwmark := by unfold nwmark_store au_fhsm_size; omega
        _ ≤ mapped sys (au_fhsm_size t.nwmark) := le_mapped sys hp _
      unfold fhsm_shrink mremap store_all
      cases sys.ftruncate <;> cases sys.mremap <;> simp [hstore]
    · omega

/-- where it does not fault, the two return the same -/
theorem resize_err (fl : Floats F) (sys : ShmSys) (t : Aufhsm F) (file map n : ℕ) (r : ℤ × Aufhsm F)
    (h : fhsm_resize fl sys t n = some r) {q : Resized} (hq : resize sys file map t.nwmark n = some q) :
    r.1 = q.err := by
  unfold fhsm_resize at h
  unfold resize at hq
  by_cases hlt : t.nwmark < n
  · rw [if_pos hlt] at h hq
    obtain ⟨h, -⟩ := Option.filter_eq_some_iff.1 h
    unfold Fhsm.fhsm_expand at h
    unfold fhsm_expand mremap store_all at hq
    cases hf : sys.ftruncate <;> cases hm : sys.mremap <;> simp [hf, hm] at h hq
    all_goals first
      | rw [← h, ← hq]
      | rw [← h.2, ← hq.2]
  · rw [if_neg hlt] at h hq
    unfold Fhsm.fhsm_shrink at h
    unfold fhsm_shrink mremap store_all at hq
    cases hf : sys.ftruncate <;> cases hm : sys.mremap <;> simp [hf, hm] at h hq
    all_goals first
      | rw [← h, ← hq]
      | rw [← h, ← hq.2]

end AufsUtil.Fhsm.Resize
