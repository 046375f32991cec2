/-
The watermark table in shared memory (`fhsm/comm.h`, `fhsm/fhsm.c`, and au_nfhsm of `br.c`).

The table is a header (magic, checksum, number of records) and one record for every FHSM branch: the branch id and the
watermarks for blocks and inodes, as free ratios. The controller creates it, or maps the one that exists, checks its
signature, resizes it to the number of FHSM branches, drops the records it takes for stale, fills free ones, sorts and
signs. `au_fhsm` is that call, with the outcome of every system call as an input (`ShmSys`).

What the model keeps of C:
- `nwmark` is the length of the record list; `brid` is an int16_t held in an ℤ, -1 marks a free record;
- the two bytes of padding behind brid are part of the record: au_fhsm_csum reads them;
- a float is a value of a type F with the constants and operations the code uses (`Floats`); of these only that 0 is
  four zero bytes is known;
- fhsm_invalid reads `brinfo[i]`, with the index of the record, inside its loop over j; the callers pass nfhsm where the
  parameter is called nbr;
- fhsm_expand and fhsm_shrink pass mremap(2) the sizes in the order (new, old), so the mapping has the old length
  rounded up to whole pages; an access behind it is a fault;
- AuFin in fhsm_reinit ends the process.
The ftruncate that undoes a resize after a failed mremap is taken to succeed.
-/
import Mathlib.Tactic
import AufsUtil.Lib.CStr
import AufsUtil.Lib.SortSearch

namespace AufsUtil.Fhsm

open AufsUtil.CStr AufsUtil.SortSearch

/-! ## Data -/

/-- the C type float: the constants and the operations the code uses, and its four bytes in memory -/
structure Floats (F : Type) where
  zero : F
  quarter : F
  half : F
  one : F
  hundred : F
  lt : F → F → Bool
  sub : F → F → F
  div : F → F → F
  /-- sscanf(3) with "%f-%f": both numbers, or fewer than two conversions -/
  scan : Bytes → Option (F × F)
  bytes : F → Bytes
  bytes_zero : bytes zero = [0, 0, 0, 0]

/-- the decimal digits at the front and the rest; `none` when there are none -/
def scan_digits (s : Bytes) : Option (ℚ × Bytes) :=
  let d := s.takeWhile fun c => 48 ≤ c && c ≤ 57
  if d = [] then none else some (d.foldl (fun n c => 10 * n + (c.toNat - 48 : ℕ)) 0, s.drop d.length)

def rat_bytes (q : ℚ) : Bytes :=
  if q = 1 / 4 then [0, 0, 128, 62] else if q = 1 / 2 then [0, 0, 0, 63] else if q = 3 / 4 then [0, 0, 64, 63]
  else if q = 1 then [0, 0, 128, 63] else [0, 0, 0, 0]

theorem rat_bytes_zero : rat_bytes 0 = [0, 0, 0, 0] := by decide +kernel

/-- floats to compute with: exact on whole percentages, with the bytes of the quarters -/
def ratFloats : Floats ℚ where
  zero := 0
  quarter := 1 / 4
  half := 1 / 2
  one := 1
  hundred := 100
  lt a b := a < b
  sub a b := a - b
  div a b := a / b
  scan s :=
    match scan_digits s with
    | some (u, 45 :: s) => (scan_digits s).map fun r => (u, r.1)
    | _ => none
  bytes := rat_bytes
  bytes_zero := rat_bytes_zero

/-- struct aufhsm_wmark; the pairs are [AuFhsm_WM_UPPER], [AuFhsm_WM_LOWER] -/
structure Wmark (F : Type) where
  brid : ℤ
  pad : UInt8 × UInt8
  block : F × F
  inode : F × F
deriving DecidableEq, Repr

/-- struct aufhsm, the contents of the shared memory -/
structure Aufhsm (F : Type) where
  magic : Bytes
  csum : ℤ
  wmark : List (Wmark F)
deriving DecidableEq, Repr

/-- union aufs_brinfo -/
structure Brinfo where
  id : ℤ
  perm : ℕ
  path : Bytes
deriving DecidableEq, Repr

variable {F : Type}

def Aufhsm.nwmark (t : Aufhsm F) : ℕ := t.wmark.length

def AuBrAttr_FHSM : ℕ := 1 <<< 5

def au_br_fhsm (brperm : ℕ) : Bool := brperm &&& AuBrAttr_FHSM != 0

def Brinfo.fhsm (b : Brinfo) : Bool := au_br_fhsm b.perm

/-- the number of FHSM branches -/
def au_nfhsm (brinfo : List Brinfo) : ℕ := brinfo.countP Brinfo.fhsm

/-- sizeof(struct aufhsm) + nbr * sizeof(struct aufhsm_wmark) -/
def au_fhsm_size (nbr : ℕ) : ℕ := 16 + nbr * 20

/-! ## Signature -/

/-- "AUFHSM" -/
def AUFHSM_MAGIC : Bytes := [65, 85, 70, 72, 83, 77]

def Wmark.bytes (fl : Floats F) (w : Wmark F) : Bytes :=
  le 2 w.brid ++ [w.pad.1, w.pad.2] ++
    fl.bytes w.block.1 ++ fl.bytes w.block.2 ++ fl.bytes w.inode.1 ++ fl.bytes w.inode.2

/-- the sum of the chars from `nwmark` to the end of the table, in 32-bit unsigned arithmetic -/
def au_fhsm_csum (fl : Floats F) (t : Aufhsm F) : ℤ :=
  ((le 4 t.nwmark ++ (t.wmark.map (Wmark.bytes fl)).flatten).map schar).sum % 2 ^ 32

def au_fhsm_sign (fl : Floats F) (t : Aufhsm F) : Aufhsm F :=
  { t with magic := AUFHSM_MAGIC ++ [0, 0], csum := au_fhsm_csum fl t }

/-- strncmp over magic[8] stops at the NUL behind the six letters -/
def au_fhsm_sign_verify (fl : Floats F) (t : Aufhsm F) : Bool :=
  t.magic.take 7 == AUFHSM_MAGIC ++ [0] && t.csum == au_fhsm_csum fl t

theorem sign_verify (fl : Floats F) (t : Aufhsm F) : au_fhsm_sign_verify fl (au_fhsm_sign fl t) = true := by
  have hcsum : au_fhsm_csum fl (au_fhsm_sign fl t) = au_fhsm_csum fl t := rfl
  unfold au_fhsm_sign_verify
  rw [hcsum]
  simp [au_fhsm_sign, AUFHSM_MAGIC]

/-! ## Sorting and searching by brid -/

/-- the order of au_wm_qsort_brid and au_wm_bsearch_brid -/
abbrev bridOrd : ℤ → ℤ → Ordering := compare

def au_fhsm_sort_brid (qs : Qsort bridOrd (Wmark.brid (F := F))) (t : Aufhsm F) : Aufhsm F :=
  { t with wmark := qs.sort t.wmark }

def au_wm_search_brid (bs : Bsearch bridOrd (Wmark.brid (F := F))) (brid : ℤ) (t : Aufhsm F) : Option ℕ :=
  bs.search brid t.wmark

/-- the index of the first record with this brid -/
def au_wm_lfind (brid : ℤ) (wm : List (Wmark F)) : Option ℕ := wm.findIdx? fun w => w.brid = brid

theorem lfind_some {x : ℤ} {wm : List (Wmark F)} {k : ℕ} (h : au_wm_lfind x wm = some k) :
    ∃ w, wm[k]? = some w ∧ w.brid = x := by
  obtain ⟨hk, hx, -⟩ := List.findIdx?_eq_some_iff_getElem.1 h
  exact ⟨wm[k], List.getElem?_eq_getElem hk, by simpa using hx⟩

theorem lfind_none_iff (x : ℤ) (wm : List (Wmark F)) : au_wm_lfind x wm = none ↔ ∀ w ∈ wm, w.brid ≠ x := by
  simp [au_wm_lfind, List.findIdx?_eq_none_iff]

/-! ## Creating and resizing -/

def wm_init (fl : Floats F) (wm : Wmark F) (b : Brinfo) : Wmark F :=
  { wm with brid := b.id, block := (fl.quarter, fl.half), inode := (fl.one, fl.one) }

/-- a record of zero bytes, as ftruncate(2) makes them -/
def Wmark.zeroed (fl : Floats F) : Wmark F := ⟨0, (0, 0), (fl.zero, fl.zero), (fl.zero, fl.zero)⟩

/-- the outcome of the system calls: shm_open, ftruncate and mmap of a new table; the same of an existing one; the
ftruncate and the mremap of a resize -/
structure ShmSys where
  create : Bool
  map : Bool
  ftruncate : Bool
  mremap : Bool
  pagesize : ℕ

/-- the second loop of fhsm_create: `wm` walks over the records, one for every FHSM branch -/
def create_loop (fl : Floats F) : List Brinfo → ℕ → List (Wmark F) → List (Wmark F)
  | [], _, wm => wm
  | b :: bs, k, wm =>
    if b.fhsm then create_loop fl bs (k + 1) (wm.modify k fun w => wm_init fl w b) else create_loop fl bs k wm

def fhsm_create (fl : Floats F) (nfhsm : ℕ) (brinfo : List Brinfo) : Aufhsm F :=
  ⟨List.replicate 8 0, 0,
    create_loop fl brinfo 0 (List.replicate nfhsm { Wmark.zeroed fl with brid := -1 })⟩

/-- the bytes that mremap(addr, len, cur_len) leaves mapped -/
def mapped (sys : ShmSys) (cur_len : ℕ) : ℕ := (cur_len + sys.pagesize - 1) / sys.pagesize * sys.pagesize

def fhsm_shrink (fl : Floats F) (sys : ShmSys) (t : Aufhsm F) (nfhsm : ℕ) : ℤ × Aufhsm F :=
  if !sys.ftruncate then (-1, t)
  else if !sys.mremap then
    -- the file grows back, the records that were cut off are zero bytes now
    (-1, { t with wmark := t.wmark.take nfhsm ++ List.replicate (t.nwmark - nfhsm) (Wmark.zeroed fl) })
  else (0, { t with wmark := t.wmark.take nfhsm })

/-- `none` is a fault: the brid of the last record lies behind the mapping -/
def fhsm_expand (fl : Floats F) (sys : ShmSys) (t : Aufhsm F) (nfhsm : ℕ) : Option (ℤ × Aufhsm F) :=
  if !sys.ftruncate || !sys.mremap then some (-1, t)
  else if mapped sys (au_fhsm_size t.nwmark) < au_fhsm_size (nfhsm - 1) + 2 then none
  else some (0, { t with
    wmark := t.wmark ++ List.replicate (nfhsm - t.nwmark) { Wmark.zeroed fl with brid := -1 } })

/-! ## Invalidating and re-initialising -/

/-- one turn of the loop of fhsm_invalid; the loop over j tests the same branch every time -/
def invalid_one (brinfo : List Brinfo) (nbr i : ℕ) (wm : Wmark F) : Bool × Wmark F :=
  if wm.brid < 0 then (true, wm)
  else
    let found := (List.range nbr).foldl
      (fun found _ => if found then found else decide (brinfo[i]?.map Brinfo.id = some wm.brid)) false
    if found then (false, wm) else (true, { wm with brid := -1 })

/-- the number of invalid records and the table -/
def fhsm_invalid (t : Aufhsm F) (brinfo : List Brinfo) (nbr : ℕ) : ℕ × Aufhsm F :=
  let r := t.wmark.mapIdx (invalid_one brinfo nbr)
  (r.countP Prod.fst, { t with wmark := r.map Prod.snd })

/-- one turn of the loop of fhsm_reinit; `prev` is the index of a record; `none` is AuFin -/
def reinit_one (fl : Floats F) (b : Brinfo) (wm : List (Wmark F)) (prev : Option ℕ) :
    Option (List (Wmark F) × Option ℕ) :=
  if !b.fhsm then some (wm, prev)
  else if b.id < 0 then none
  else
    match au_wm_lfind b.id wm with
    | some k => some (wm, some k)
    | none =>
      match au_wm_lfind (-1) wm with
      | none => none
      | some k => some (wm.modify k fun w =>
          let w := wm_init fl w b
          match prev.bind (wm[·]?) with
          | none => w
          | some p => { w with block := p.block, inode := p.inode }, prev)

/-- the loop of fhsm_reinit: did it run to its end, and the records then -/
def reinit_loop (fl : Floats F) : List Brinfo → List (Wmark F) → Option ℕ → Bool × List (Wmark F)
  | [], wm, _ => (true, wm)
  | b :: bs, wm, prev =>
    match reinit_one fl b wm prev with
    | none => (false, wm)
    | some (wm, prev) => reinit_loop fl bs wm prev

def fhsm_reinit (fl : Floats F) (t : Aufhsm F) (brinfo : List Brinfo) (nbr : ℕ) : Bool × Aufhsm F :=
  let r := reinit_loop fl (brinfo.take nbr) t.wmark none
  (r.1, { t with wmark := r.2 })

/-! ## au_fhsm -/

/-- how a call of au_fhsm ends, with the named shared memory as it leaves it -/
inductive Res (F : Type) where
  | ret (err : ℤ) (shm : Option (Aufhsm F))
  | fin (shm : Option (Aufhsm F))
  | fault
deriving DecidableEq

/-- `p->nwmark < nfhsm ? fhsm_expand : fhsm_shrink`; what follows reaches every byte of the resized table -/
def fhsm_resize (fl : Floats F) (sys : ShmSys) (p : Aufhsm F) (nfhsm : ℕ) : Option (ℤ × Aufhsm F) :=
  if p.nwmark < nfhsm then
    (fhsm_expand fl sys p nfhsm).filter fun r =>
      r.1 != 0 || au_fhsm_size nfhsm ≤ mapped sys (au_fhsm_size p.nwmark)
  else some (fhsm_shrink fl sys p nfhsm)

/-- fhsm_invalid, and fhsm_reinit if it found an invalid record -/
def fhsm_refresh (fl : Floats F) (p : Aufhsm F) (nfhsm : ℕ) (brinfo : List Brinfo) : Bool × Aufhsm F :=
  let (invalid, p) := fhsm_invalid p brinfo nfhsm
  if invalid ≠ 0 then fhsm_reinit fl p brinfo nfhsm else (true, p)

def au_fhsm (fl : Floats F) (qs : Qsort bridOrd (Wmark.brid (F := F))) (sys : ShmSys) (shm : Option (Aufhsm F))
    (nfhsm : ℕ) (brinfo : List Brinfo) : Res F :=
  match shm with
  | none =>
    if !sys.create then .ret (-1) none
    else .ret 0 (some (au_fhsm_sign fl (au_fhsm_sort_brid qs (fhsm_create fl nfhsm brinfo))))
  | some p =>
    if !sys.map || !au_fhsm_sign_verify fl p then .ret (-1) (some p)
    else
      match fhsm_resize fl sys p nfhsm with
      | none => .fault
      | some (err, p) =>
        if err ≠ 0 then .ret err (some p)
        else
          let (done, p) := fhsm_refresh fl p nfhsm brinfo
          if done then .ret 0 (some (au_fhsm_sign fl (au_fhsm_sort_brid qs p))) else .fin (some p)

/-! ## What a resize can do -/

/-- the table that a shrink leaves when mremap(2) fails: the records that were cut off are zero bytes -/
def cut (fl : Floats F) (n : ℕ) (t : Aufhsm F) : Aufhsm F :=
  { t with wmark := t.wmark.take n ++ List.replicate (t.nwmark - n) (Wmark.zeroed fl) }

/-- the table after a resize: records cut off, or free ones added -/
def resized (fl : Floats F) (n : ℕ) (t : Aufhsm F) : Aufhsm F :=
  { t with wmark := t.wmark.take n ++ List.replicate (n - t.nwmark) { Wmark.zeroed fl with brid := -1 } }

/-- the system calls of a shrink that cuts records off and does not succeed -/
def CutOff (sys : ShmSys) (n : ℕ) (t : Aufhsm F) : Prop :=
  sys.ftruncate = true ∧ sys.mremap = false ∧ n ≤ t.nwmark

theorem resize_cases (fl : Floats F) (sys : ShmSys) (t : Aufhsm F) (n : ℕ) :
    (CutOff sys n t ∧ fhsm_resize fl sys t n = some (-1, cut fl n t)) ∨
      (¬ CutOff sys n t ∧ (fhsm_resize fl sys t n = none ∨ fhsm_resize fl sys t n = some (-1, t) ∨
        fhsm_resize fl sys t n = some (0, resized fl n t))) := by
  unfold CutOff fhsm_resize
  by_cases hlt : t.nwmark < n
  · refine Or.inr ⟨fun hc => by omega, ?_⟩
    rw [if_pos hlt]
    have htake : t.wmark.take n = t.wmark := List.take_of_length_le (by unfold Aufhsm.nwmark at hlt; omega)
    unfold fhsm_expand
    split_ifs
    · exact Or.inr (Or.inl rfl)
    · exact Or.inl rfl
    · by_cases hfit : au_fhsm_size n ≤ mapped sys (au_fhsm_size t.nwmark)
      · exact Or.inr (Or.inr (by simp [hfit, resized, htake]))
      · exact Or.inl (by simp [hfit])
  · rw [if_neg hlt]
    unfold fhsm_shrink
    cases sys.ftruncate with
    | false => exact Or.inr ⟨by simp, Or.inr (Or.inl rfl)⟩
    | true =>
      cases sys.mremap with
      | false => exact Or.inl ⟨⟨rfl, rfl, by omega⟩, rfl⟩
      | true =>
        have hzero : n - t.nwmark = 0 := by omega
        exact Or.inr ⟨by simp, Or.inr (Or.inr (by simp [resized, hzero]))⟩

/-- how au_fhsm ends on an existing table -/
theorem au_fhsm_some_cases (fl : Floats F) (qs : Qsort bridOrd (Wmark.brid (F := F))) (sys : ShmSys) (t : Aufhsm F)
    (n : ℕ) (brinfo : List Brinfo) (hmap : sys.map = true) (hv : au_fhsm_sign_verify fl t = true) :
    (CutOff sys n t ∧ au_fhsm fl qs sys (some t) n brinfo = .ret (-1) (some (cut fl n t))) ∨
      (¬ CutOff sys n t ∧ (au_fhsm fl qs sys (some t) n brinfo = .fault ∨
        au_fhsm fl qs sys (some t) n brinfo = .ret (-1) (some t) ∨
        ((fhsm_refresh fl (resized fl n t) n brinfo).1 = false ∧
          au_fhsm fl qs sys (some t) n brinfo = .fin (some (fhsm_refresh fl (resized fl n t) n brinfo).2)) ∨
        ((fhsm_refresh fl (resized fl n t) n brinfo).1 = true ∧ au_fhsm fl qs sys (some t) n brinfo =
          .ret 0 (some (au_fhsm_sign fl (au_fhsm_sort_brid qs (fhsm_refresh fl (resized fl n t) n brinfo).2)))))) := by
  unfold au_fhsm
  simp only [hmap, hv, Bool.not_true, Bool.or_false, Bool.false_eq_true, if_false]
  rcases resize_cases fl sys t n with ⟨hc, hr⟩ | ⟨hc, hr | hr | hr⟩
  · exact Or.inl ⟨hc, by rw [hr]; simp⟩
  · exact Or.inr ⟨hc, Or.inl (by rw [hr])⟩
  · exact Or.inr ⟨hc, Or.inr (Or.inl (by rw [hr]; simp))⟩
  · refine Or.inr ⟨hc, Or.inr (Or.inr ?_)⟩
    rw [hr]
    simp only [ne_eq, not_true_eq_false, if_false]
    cases (fhsm_refresh fl (resized fl n t) n brinfo).1
    · exact Or.inl ⟨rfl, by simp⟩
    · exact Or.inr ⟨rfl, by simp⟩

end AufsUtil.Fhsm
