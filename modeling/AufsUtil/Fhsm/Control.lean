/-
The controller (`fhsm/aufhsm.c`): the watermark arguments and the run of aufhsm around them.

An argument is `UPPER-LOWER`, for every record, or `BranchPath=UPPER-LOWER`. The pair is checked, turned into free
ratios and written straight into the shared memory, one argument after the other; a malformed pair or an unknown branch
ends the process with AuFin. The table is signed when the last argument is done.

- `wmark_getElem?`: what one accepted argument does to each record; `wmark_loop_spec`: what a list of them does.
- `signature_kept_iff`: exactly when a run leaves a table that verifies and, if an argument was rejected, the watermarks
  of before. A rejected argument behind one that changed a record leaves that change, unsigned; a failing mremap(2)
  during a shrink leaves zero bytes where the cut-off records were.

What the model keeps of C:
- a known branch without a record (a branch that is no FHSM branch) accepts any text behind the `=`;
- a pair passes when no comparison says no; nothing is assumed about comparisons of floats;
- the copies of the first record are made from record to record.
The checks of main before the shared memory is touched, the dump, the message to the daemon and its start are left out.
-/
import Mathlib.Tactic
import AufsUtil.Fhsm.Table

namespace AufsUtil.Fhsm

open AufsUtil.CStr AufsUtil.SortSearch

variable {F : Type}

/-! ## Arguments -/

def au_br_sort_path (qp : Qsort strcmp Brinfo.path) (brinfo : List Brinfo) : List Brinfo := qp.sort brinfo

def au_br_search_path (bp : Bsearch strcmp Brinfo.path) (path : Bytes) (brinfo : List Brinfo) : Option Brinfo :=
  (bp.search path brinfo).bind (brinfo[·]?)

/-- the pair that opt_test(optflags, INODE) selects -/
def Wmark.pair (inode : Bool) (w : Wmark F) : F × F := if inode then w.inode else w.block

def Wmark.setPair (inode : Bool) (w : Wmark F) (a : F × F) : Wmark F :=
  if inode then { w with inode := a } else { w with block := a }

/-- the pair in the text, as free ratios; `none` when it is malformed or out of range -/
def wmark_pair (fl : Floats F) (str : Bytes) : Option (F × F) :=
  match fl.scan str with
  | none => none
  | some (u, l) =>
    if fl.lt fl.hundred u || fl.lt u fl.zero || fl.lt fl.hundred l || fl.lt l fl.zero || fl.lt u l then none
    else some (fl.div (fl.sub fl.hundred u) fl.hundred, fl.div (fl.sub fl.hundred l) fl.hundred)

/-- `none` is AuFin -/
def do_wmark (fl : Floats F) (inode : Bool) (wm : Wmark F) (str : Bytes) : Option (Wmark F) :=
  (wmark_pair fl str).map (wm.setPair inode)

/-- the loop that copies wm[i - 1] to wm[i] -/
def copy_loop (inode : Bool) (prev : Wmark F) : List (Wmark F) → List (Wmark F)
  | [] => []
  | w :: ws => w.setPair inode (prev.pair inode) :: copy_loop inode (w.setPair inode (prev.pair inode)) ws

/-- one argument; `none` is AuFin, here or in do_wmark -/
def wmark (fl : Floats F) (bp : Bsearch strcmp Brinfo.path) (inode : Bool) (str : Bytes) (fhsm : Aufhsm F)
    (brinfo : List Brinfo) : Option (Aufhsm F) :=
  match strrchr str 61 with
  | some p =>
    match au_br_search_path bp (str.take p) brinfo with
    | none => none
    | some b =>
      match au_wm_lfind b.id fhsm.wmark with
      | none => some fhsm
      | some k =>
        match fhsm.wmark[k]? with
        | none => some fhsm
        | some w => (do_wmark fl inode w (str.drop (p + 1))).map fun w => { fhsm with wmark := fhsm.wmark.set k w }
  | none =>
    match fhsm.wmark with
    -- a table of the controller has two records at least
    | [] => (wmark_pair fl str).map fun _ => fhsm
    | w :: ws => (do_wmark fl inode w str).map fun w => { fhsm with wmark := w :: copy_loop inode w ws }

/-- the loop of main over the arguments: was one rejected, and the table then -/
def wmark_loop (fl : Floats F) (bp : Bsearch strcmp Brinfo.path) (inode : Bool) (brinfo : List Brinfo) :
    List Bytes → Aufhsm F → Bool × Aufhsm F
  | [], t => (false, t)
  | str :: args, t =>
    match wmark fl bp inode str t brinfo with
    | none => (true, t)
    | some t => wmark_loop fl bp inode brinfo args t

/-! ## main -/

structure Opts where
  inode : Bool
  recreate : Bool
  kill : Bool

/-- the system calls of a whole run: those of au_fhsm, shm_unlink and calloc -/
structure CtlSys extends ShmSys where
  unlink : Bool
  calloc : Bool

/-- how the process ends: main returns, AuFin outside of the arguments, AuFin in wmark or do_wmark -/
inductive End where
  | ret
  | fin
  | rejected
deriving DecidableEq, Repr

section Main

variable (fl : Floats F) (qs : Qsort bridOrd (Wmark.brid (F := F))) (qp : Qsort strcmp Brinfo.path)
  (bp : Bsearch strcmp Brinfo.path) (o : Opts) (sys : CtlSys)

/-- what au_fhsm finds: --recreate unlinks the shared memory before -/
def unlinked (shm : Option (Aufhsm F)) : Option (Aufhsm F) := if o.recreate && sys.unlink then none else shm

/-- main of aufhsm.c, from shm_unlink on: how it ends and the named shared memory then; `none` is a fault -/
def aufhsm_main (shm : Option (Aufhsm F)) (brinfo : List Brinfo) (args : List Bytes) :
    Option (End × Option (Aufhsm F)) :=
  let shm := unlinked o sys shm
  if !o.recreate && o.kill then some (.ret, shm)
  else if au_nfhsm brinfo < 2 then some (.fin, shm)
  else
    match au_fhsm fl qs sys.toShmSys shm (au_nfhsm brinfo) brinfo with
    | .fault => none
    | .fin shm => some (.fin, shm)
    | .ret err shm =>
      if err ≠ 0 then some (.ret, shm)
      else if !sys.calloc then some (.fin, shm)
      else
        match shm with
        | none => some (.ret, none)
        | some t =>
          let (rejected, t) := wmark_loop fl bp o.inode (au_br_sort_path qp brinfo) args t
          if rejected then some (.rejected, some t) else some (.ret, some (au_fhsm_sign fl t))

/-- the table the arguments are applied to: the one au_fhsm returns, when main comes so far -/
def args_table (shm : Option (Aufhsm F)) (brinfo : List Brinfo) : Option (Aufhsm F) :=
  if (!o.recreate && o.kill) || au_nfhsm brinfo < 2 || !sys.calloc then none
  else
    match au_fhsm fl qs sys.toShmSys (unlinked o sys shm) (au_nfhsm brinfo) brinfo with
    | .ret err shm => if err ≠ 0 then none else shm
    | _ => none

end Main

/-! ## What an argument does to a record -/

@[simp] theorem setPair_brid (inode : Bool) (w : Wmark F) (a : F × F) : (w.setPair inode a).brid = w.brid := by
  cases inode <;> rfl

@[simp] theorem setPair_pair (inode : Bool) (w : Wmark F) (a : F × F) : (w.setPair inode a).pair inode = a := by
  cases inode <;> rfl

theorem setPair_eq_self (inode : Bool) (w : Wmark F) (a : F × F) : w.setPair inode a = w ↔ a = w.pair inode := by
  refine ⟨?_, ?_⟩
  · intro h
    rw [← h, setPair_pair]
  · intro h
    subst h
    cases inode <;> rfl

theorem setPair_setPair (inode : Bool) (w : Wmark F) (a b : F × F) :
    (w.setPair inode a).setPair inode b = w.setPair inode b := by
  cases inode <;> rfl

/-- the pair an accepted argument writes into the record at index k, `ids` being the brids of the records -/
def written (fl : Floats F) (bp : Bsearch strcmp Brinfo.path) (brinfo : List Brinfo) (ids : List ℤ) (str : Bytes)
    (k : ℕ) : Option (F × F) :=
  match strrchr str 61 with
  | some p =>
    match au_br_search_path bp (str.take p) brinfo with
    | none => none
    | some b => if ids.findIdx? (· = b.id) = some k then wmark_pair fl (str.drop (p + 1)) else none
  | none => wmark_pair fl str

/-- an argument that ends the process -/
def rejects (fl : Floats F) (bp : Bsearch strcmp Brinfo.path) (brinfo : List Brinfo) (ids : List ℤ) (str : Bytes) :
    Bool :=
  match strrchr str 61 with
  | some p =>
    match au_br_search_path bp (str.take p) brinfo with
    | none => true
    | some b => b.id ∈ ids && (wmark_pair fl (str.drop (p + 1))).isNone
  | none => (wmark_pair fl str).isNone

/-- the last of the arguments that writes into the record at index k -/
def last_written (fl : Floats F) (bp : Bsearch strcmp Brinfo.path) (brinfo : List Brinfo) (ids : List ℤ)
    (args : List Bytes) (k : ℕ) : Option (F × F) :=
  args.foldl (fun a str => (written fl bp brinfo ids str k).or a) none

def Aufhsm.brids (t : Aufhsm F) : List ℤ := t.wmark.map Wmark.brid

theorem lfind_brids (t : Aufhsm F) (x : ℤ) : au_wm_lfind x t.wmark = t.brids.findIdx? (· = x) := by
  rw [au_wm_lfind, Aufhsm.brids, List.findIdx?_map]
  rfl

theorem copy_loop_getElem? (inode : Bool) (prev : Wmark F) (ws : List (Wmark F)) (k : ℕ) :
    (copy_loop inode prev ws)[k]? = ws[k]?.map fun w => w.setPair inode (prev.pair inode) := by
  induction ws generalizing prev k with
  | nil => rfl
  | cons w ws ih =>
    cases k with
    | zero => rfl
    | succ k => simp [copy_loop, ih]

/-- writing a pair, or nothing -/
def Wmark.put (inode : Bool) (a : Option (F × F)) (w : Wmark F) : Wmark F :=
  match a with
  | none => w
  | some a => w.setPair inode a

@[simp] theorem map_put_none (inode : Bool) (x : Option (Wmark F)) : x.map (Wmark.put inode none) = x := by
  cases x <;> rfl

theorem put_put (inode : Bool) (a b : Option (F × F)) (w : Wmark F) :
    (w.put inode a).put inode b = w.put inode (b.or a) := by
  cases b with
  | none => rfl
  | some b => cases a <;> simp [Wmark.put, setPair_setPair]

section Loop

variable (fl : Floats F) (bp : Bsearch strcmp Brinfo.path) (inode : Bool) (brinfo : List Brinfo)

/-- an argument is rejected, or it writes its pair into the records it addresses and touches nothing else -/
theorem wmark_cases (str : Bytes) (t : Aufhsm F) :
    (rejects fl bp brinfo t.brids str = true ∧ wmark fl bp inode str t brinfo = none) ∨
      (rejects fl bp brinfo t.brids str = false ∧ ∃ ws, wmark fl bp inode str t brinfo = some { t with wmark := ws } ∧
        ∀ k, ws[k]? = t.wmark[k]?.map (Wmark.put inode (written fl bp brinfo t.brids str k))) := by
  obtain ⟨magic, csum, wm⟩ := t
  unfold rejects wmark written
  cases strrchr str 61 with
  | none =>
    simp only [do_wmark]
    cases hp : wmark_pair fl str with
    | none =>
      left
      cases wm <;> exact ⟨rfl, rfl⟩
    | some a =>
      right
      cases wm with
      | nil => exact ⟨rfl, [], rfl, fun k => rfl⟩
      | cons w ws =>
        refine ⟨rfl, _, rfl, ?_⟩
        intro k
        cases k with
        | zero => rfl
        | succ k =>
          rw [List.getElem?_cons_succ, copy_loop_getElem?, setPair_pair]
          rfl
  | some p =>
    cases hs : au_br_search_path bp (str.take p) brinfo with
    | none =>
      simp only [hs]
      exact Or.inl ⟨trivial, trivial⟩
    | some b =>
      simp only [hs, ← lfind_brids]
      cases hl : au_wm_lfind b.id wm with
      | none =>
        right
        have hno : b.id ∉ Aufhsm.brids ⟨magic, csum, wm⟩ := by
          intro hm
          obtain ⟨w, hw, hwb⟩ := List.mem_map.1 hm
          exact (lfind_none_iff b.id wm).1 hl w hw hwb
        exact ⟨by simp [hno], wm, rfl, fun k => by simp⟩
      | some j =>
        obtain ⟨w, hw, hwb⟩ := lfind_some hl
        have hmem : b.id ∈ Aufhsm.brids ⟨magic, csum, wm⟩ := List.mem_map.2 ⟨w, List.mem_of_getElem? hw, hwb⟩
        simp only [hw, do_wmark, hmem, decide_true, Bool.true_and]
        cases hp : wmark_pair fl (str.drop (p + 1)) with
        | none => exact Or.inl ⟨rfl, rfl⟩
        | some a =>
          refine Or.inr ⟨rfl, _, rfl, ?_⟩
          intro k
          rw [List.getElem?_set]
          by_cases hjk : j = k
          · subst hjk
            obtain ⟨hlt, rfl⟩ := List.getElem?_eq_some_iff.1 hw
            simp [hlt, Wmark.put]
          · simp [hjk]

theorem brids_of_put {t u : Aufhsm F} (f : ℕ → Option (F × F))
    (h : ∀ k, u.wmark[k]? = t.wmark[k]?.map (Wmark.put inode (f k))) : u.brids = t.brids := by
  apply List.ext_getElem?
  intro k
  rw [Aufhsm.brids, Aufhsm.brids, List.getElem?_map, List.getElem?_map, h, Option.map_map]
  congr 1
  funext w
  cases hf : f k with
  | none => rfl
  | some a => exact setPair_brid inode w a

theorem last_written_from (ids : List ℤ) (args : List Bytes) (k : ℕ) (a : Option (F × F)) :
    args.foldl (fun a str => (written fl bp brinfo ids str k).or a) a =
      (last_written fl bp brinfo ids args k).or a := by
  unfold last_written
  induction args generalizing a with
  | nil => simp
  | cons str args ih =>
    rw [List.foldl_cons, List.foldl_cons, ih, ih (Option.or _ none), Option.or_none, Option.or_assoc]

/-- the loop over the arguments: none is rejected, or the first rejected one stops it; the accepted ones before it have
written their pairs -/
theorem wmark_loop_spec (args : List Bytes) (t : Aufhsm F) :
    ∃ ws, (wmark_loop fl bp inode brinfo args t).2 = { t with wmark := ws } ∧
      (wmark_loop fl bp inode brinfo args t).1 = args.any (rejects fl bp brinfo t.brids) ∧
      ∀ k, ws[k]? = t.wmark[k]?.map (Wmark.put inode (last_written fl bp brinfo t.brids
        (args.takeWhile fun str => !rejects fl bp brinfo t.brids str) k)) := by
  induction args generalizing t with
  | nil => exact ⟨t.wmark, rfl, rfl, fun k => by simp [last_written]⟩
  | cons str args ih =>
    rw [wmark_loop]
    rcases wmark_cases fl bp inode brinfo str t with ⟨hr, hw⟩ | ⟨hr, ws, hw, hws⟩
    · rw [hw]
      refine ⟨t.wmark, rfl, by simp [hr], fun k => ?_⟩
      simp [hr, last_written]
    · rw [hw]
      obtain ⟨vs, hvs, hrej, hget⟩ := ih { t with wmark := ws }
      have hids : ({ t with wmark := ws } : Aufhsm F).brids = t.brids := brids_of_put inode _ hws
      rw [hids] at hrej hget
      refine ⟨vs, hvs, by simp [hr, hrej], fun k => ?_⟩
      rw [hget, hws, Option.map_map]
      congr 1
      funext w
      rw [Function.comp_apply, put_put, List.takeWhile_cons, hr]
      simp only [Bool.not_false, if_true]
      conv_rhs => rw [last_written, List.foldl_cons, last_written_from, Option.or_none]

end Loop

/-! ## The signature after a run -/

/-- the sum of the chars of some records -/
def char_sum (fl : Floats F) (ws : List (Wmark F)) : ℤ := ((ws.map (Wmark.bytes fl)).flatten.map schar).sum

theorem char_sum_append (fl : Floats F) (ws vs : List (Wmark F)) :
    char_sum fl (ws ++ vs) = char_sum fl ws + char_sum fl vs := by
  simp [char_sum]

theorem char_sum_zeroed (fl : Floats F) (n : ℕ) : char_sum fl (List.replicate n (Wmark.zeroed fl)) = 0 := by
  have hone : (((Wmark.zeroed fl).bytes fl).map schar).sum = 0 := by
    simp [Wmark.bytes, Wmark.zeroed, fl.bytes_zero, schar, le, List.range_succ]
  induction n with
  | zero => rfl
  | succ n ih =>
    have hcons : List.replicate (n + 1) (Wmark.zeroed fl) = [Wmark.zeroed fl] ++ List.replicate n (Wmark.zeroed fl) := rfl
    rw [hcons, char_sum_append, ih, add_zero]
    simpa [char_sum] using hone

theorem csum_eq (fl : Floats F) (t : Aufhsm F) :
    au_fhsm_csum fl t = (((le 4 t.nwmark).map schar).sum + char_sum fl t.wmark) % 2 ^ 32 := by
  simp [au_fhsm_csum, char_sum]

/-- a table whose shrink failed verifies only if the chars of the lost records sum to zero -/
theorem cut_verify (fl : Floats F) (n : ℕ) (t : Aufhsm F) (hn : n ≤ t.nwmark) (hv : au_fhsm_sign_verify fl t = true) :
    au_fhsm_sign_verify fl (cut fl n t) = true ↔ char_sum fl (t.wmark.drop n) % 2 ^ 32 = 0 := by
  unfold au_fhsm_sign_verify at hv ⊢
  simp only [Bool.and_eq_true, beq_iff_eq] at hv ⊢
  have hlen : (cut fl n t).nwmark = t.nwmark := by
    unfold Aufhsm.nwmark at hn ⊢
    simp only [cut, Aufhsm.nwmark, List.length_append, List.length_take, List.length_replicate]
    omega
  have hsplit : char_sum fl t.wmark = char_sum fl (t.wmark.take n) + char_sum fl (t.wmark.drop n) := by
    rw [← char_sum_append, List.take_append_drop]
  have hcut : char_sum fl (cut fl n t).wmark = char_sum fl (t.wmark.take n) := by
    rw [cut, char_sum_append, char_sum_zeroed, add_zero]
  have hcsum : (cut fl n t).csum = t.csum := rfl
  have hmagic : (cut fl n t).magic = t.magic := rfl
  rw [hmagic, hcsum, hv.2, csum_eq, csum_eq, hlen, hcut, hsplit]
  refine ⟨fun h => by omega, fun h => ⟨hv.1, by omega⟩⟩

/-- the watermarks of all records -/
def Aufhsm.marks (t : Aufhsm F) : List ((F × F) × (F × F)) := t.wmark.map fun w => (w.block, w.inode)

section Signature

variable (fl : Floats F) (qs : Qsort bridOrd (Wmark.brid (F := F))) (qp : Qsort strcmp Brinfo.path)
  (bp : Bsearch strcmp Brinfo.path) (o : Opts) (sys : CtlSys)

/-- main returned or an argument was rejected: the table verifies, and in the latter case its watermarks are those it
held before the first argument -/
def SignatureKept (shm : Option (Aufhsm F)) (brinfo : List Brinfo) (args : List Bytes) : Prop :=
  ∀ e t, aufhsm_main fl qs qp bp o sys shm brinfo args = some (e, some t) → e = .ret ∨ e = .rejected →
    au_fhsm_sign_verify fl t = true ∧
      (e = .rejected → ∀ t₁, args_table fl qs o sys shm brinfo = some t₁ → t.marks = t₁.marks)

/-- main comes to au_fhsm -/
def reaches_fhsm (brinfo : List Brinfo) : Bool := !(!o.recreate && o.kill) && 2 ≤ au_nfhsm brinfo

/-- nothing unsigned is left behind: a shrink that fails in mremap(2) loses no bytes that count; and no argument is
rejected, or the accepted ones before the first rejected one write, each last into its record, what the record holds -/
structure NothingSpoiled (shm : Option (Aufhsm F)) (brinfo : List Brinfo) (args : List Bytes) : Prop where
  shrink : reaches_fhsm o brinfo = true → sys.map = true → ∀ t, unlinked o sys shm = some t →
    CutOff sys.toShmSys (au_nfhsm brinfo) t → char_sum fl (t.wmark.drop (au_nfhsm brinfo)) % 2 ^ 32 = 0
  args : ∀ t, args_table fl qs o sys shm brinfo = some t →
    args.any (rejects fl bp (au_br_sort_path qp brinfo) t.brids) = true →
    ∀ k w a, t.wmark[k]? = some w →
      last_written fl bp (au_br_sort_path qp brinfo) t.brids
        (args.takeWhile fun str => !rejects fl bp (au_br_sort_path qp brinfo) t.brids str) k = some a →
      a = w.pair o.inode

/-- at a rejected argument: the table is as before the first one exactly if the accepted ones wrote what was there -/
theorem rejected_kept (t : Aufhsm F) (hv : au_fhsm_sign_verify fl t = true) (f : ℕ → Option (F × F))
    (ws : List (Wmark F)) (hws : ∀ k, ws[k]? = t.wmark[k]?.map (Wmark.put o.inode (f k))) :
    (au_fhsm_sign_verify fl { t with wmark := ws } = true ∧ Aufhsm.marks { t with wmark := ws } = t.marks) ↔
      ∀ k w a, t.wmark[k]? = some w → f k = some a → a = w.pair o.inode := by
  refine ⟨?_, ?_⟩
  · rintro ⟨_, hm⟩ k w a hw ha
    have hk : (ws[k]?).map (fun w => (w.block, w.inode)) = (t.wmark[k]?).map fun w => (w.block, w.inode) := by
      rw [← List.getElem?_map, ← List.getElem?_map]
      exact congrArg (·[k]?) hm
    rw [hws, hw, ha] at hk
    simp only [Option.map_some, Option.some.injEq, Prod.mk.injEq, Wmark.put] at hk
    rw [← setPair_eq_self]
    cases w
    cases hi : o.inode <;> simp_all [Wmark.setPair]
  · intro h
    have heq : ws = t.wmark := by
      apply List.ext_getElem?
      intro k
      rw [hws]
      cases hw : t.wmark[k]? with
      | none => rfl
      | some w =>
        cases ha : f k with
        | none => rfl
        | some a =>
          rw [Option.map_some, Wmark.put, (setPair_eq_self o.inode w a).2 (h k w a hw ha)]
    rw [heq]
    exact ⟨hv, rfl⟩

/-- unlinked or not, the table verifies -/
theorem unlinked_verify {shm : Option (Aufhsm F)} (hv : ∀ t, shm = some t → au_fhsm_sign_verify fl t = true) :
    ∀ t, unlinked o sys shm = some t → au_fhsm_sign_verify fl t = true := by
  intro t ht
  unfold unlinked at ht
  split_ifs at ht
  exact hv t ht

/-- how main ends, by how au_fhsm ends -/
theorem main_cases (shm : Option (Aufhsm F)) (brinfo : List Brinfo) (args : List Bytes)
    (hv : ∀ t, shm = some t → au_fhsm_sign_verify fl t = true) :
    (∃ t, unlinked o sys shm = some t ∧ reaches_fhsm o brinfo = true ∧ sys.map = true ∧
        CutOff sys.toShmSys (au_nfhsm brinfo) t ∧ args_table fl qs o sys shm brinfo = none ∧
        aufhsm_main fl qs qp bp o sys shm brinfo args = some (.ret, some (cut fl (au_nfhsm brinfo) t))) ∨
      ((reaches_fhsm o brinfo = true → sys.map = true → ∀ t, unlinked o sys shm = some t →
          ¬ CutOff sys.toShmSys (au_nfhsm brinfo) t) ∧
        ((args_table fl qs o sys shm brinfo = none ∧ ∀ e t,
            aufhsm_main fl qs qp bp o sys shm brinfo args = some (e, some t) →
              e = .fin ∨ (e = .ret ∧ unlinked o sys shm = some t)) ∨
          ∃ u, args_table fl qs o sys shm brinfo = some (au_fhsm_sign fl u) ∧
            aufhsm_main fl qs qp bp o sys shm brinfo args =
              let r := wmark_loop fl bp o.inode (au_br_sort_path qp brinfo) args (au_fhsm_sign fl u)
              if r.1 then some (.rejected, some r.2) else some (.ret, some (au_fhsm_sign fl r.2)))) := by
  have hun := unlinked_verify fl o sys hv
  unfold reaches_fhsm args_table aufhsm_main
  by_cases hkill : (!o.recreate && o.kill) = true
  · simp only [hkill, if_true, Bool.true_or]
    refine Or.inr ⟨fun h => by simp at h, Or.inl ⟨trivial, fun e t h => Or.inr ?_⟩⟩
    simpa [eq_comm] using h
  · by_cases hfew : au_nfhsm brinfo < 2
    · simp only [hkill, hfew, decide_true, Bool.or_true, Bool.true_or, if_true, if_false, Bool.false_eq_true]
      have hno : ¬ 2 ≤ au_nfhsm brinfo := by omega
      refine Or.inr ⟨fun h => by simp [hno] at h, Or.inl ⟨trivial, fun e t h => Or.inl ?_⟩⟩
      simp only [Option.some.injEq, Prod.mk.injEq] at h
      exact h.1.symm
    · have hmany : 2 ≤ au_nfhsm brinfo := by omega
      simp only [hkill, hfew, hmany, decide_true, decide_false, Bool.or_false, Bool.false_or, Bool.false_eq_true,
        if_false, Bool.not_false, Bool.and_self]
      cases hshm : unlinked o sys shm with
      | none =>
        refine Or.inr ⟨fun _ _ t ht => by simp at ht, ?_⟩
        unfold au_fhsm
        cases sys.create <;> cases sys.calloc
        · exact Or.inl ⟨rfl, fun e t h => by simp at h⟩
        · exact Or.inl ⟨rfl, fun e t h => by simp at h⟩
        · exact Or.inl ⟨rfl, fun e t h => Or.inl (by simp at h; exact h.1.symm)⟩
        · exact Or.inr ⟨_, rfl, rfl⟩
      | some t =>
        cases hmap : sys.map with
        | false =>
          refine Or.inr ⟨fun _ h => by simp at h, Or.inl ?_⟩
          simp only [au_fhsm, hmap, Bool.not_false, Bool.true_or, if_true]
          exact ⟨by simp, fun e v h => Or.inr (by simpa [eq_comm] using h)⟩
        | true =>
          rcases au_fhsm_some_cases fl qs sys.toShmSys t (au_nfhsm brinfo) brinfo hmap (hun t hshm) with
            ⟨hc, hf⟩ | ⟨hc, hf⟩
          · exact Or.inl ⟨t, rfl, trivial, rfl, hc, by simp [hf], by simp [hf]⟩
          · refine Or.inr ⟨fun _ _ v hv' => by rwa [← Option.some.inj hv'], ?_⟩
            rcases hf with hf | hf | ⟨-, hf⟩ | ⟨-, hf⟩
            · exact Or.inl ⟨by simp [hf], fun e v h => by simp [hf] at h⟩
            · exact Or.inl ⟨by simp [hf], fun e v h => Or.inr (by simpa [hf, eq_comm] using h)⟩
            · refine Or.inl ⟨by simp [hf], fun e v h => Or.inl ?_⟩
              simp only [hf, Option.some.injEq, Prod.mk.injEq] at h
              exact h.1.symm
            · cases hcal : sys.calloc with
              | false =>
                refine Or.inl ⟨by simp, fun e v h => Or.inl ?_⟩
                simp [hf] at h
                exact h.1.symm
              | true => exact Or.inr ⟨_, by simp [hf]; rfl, by simp [hf]⟩

/-- **A controller run and the signature.** On a table that verifies (or without one), for every branch array, every
sequence of arguments and every outcome of the system calls: the run keeps the signature, and the watermarks when an
argument is rejected, if and only if nothing is spoiled. -/
theorem signature_kept_iff (shm : Option (Aufhsm F)) (brinfo : List Brinfo) (args : List Bytes)
    (hv : ∀ t, shm = some t → au_fhsm_sign_verify fl t = true) :
    SignatureKept fl qs qp bp o sys shm brinfo args ↔ NothingSpoiled fl qs qp bp o sys shm brinfo args := by
  have hun := unlinked_verify fl o sys hv
  unfold SignatureKept
  rcases main_cases fl qs qp bp o sys shm brinfo args hv with
    ⟨t, ht, hr, hmap, hc, hargs, hmain⟩ | ⟨hno, ⟨hargs, hmain⟩ | ⟨u, hargs, hmain⟩⟩
  · -- the shrink failed: no argument is looked at
    have hcut := cut_verify fl (au_nfhsm brinfo) t hc.2.2 (hun t ht)
    refine ⟨fun h => ⟨fun _ _ v hv' _ => ?_, fun v hv' => by simp [hargs] at hv'⟩, fun h e v hev he => ?_⟩
    · rw [ht, Option.some.injEq] at hv'
      subst hv'
      exact hcut.1 (h .ret _ hmain (Or.inl rfl)).1
    · rw [hmain, Option.some.injEq, Prod.mk.injEq, Option.some.injEq] at hev
      obtain ⟨rfl, rfl⟩ := hev
      exact ⟨hcut.2 (h.shrink hr hmap t ht hc), fun hc => by cases hc⟩
  · -- main did not come to the arguments, the table is the one it found
    refine ⟨fun _ => ⟨fun hr hm t ht hc => absurd hc (hno hr hm t ht), fun t ht => by simp [hargs] at ht⟩,
      fun _ e t het he => ?_⟩
    rcases hmain e t het with rfl | ⟨rfl, ht⟩
    · simp at he
    · exact ⟨hun t ht, fun hc => by cases hc⟩
  · obtain ⟨ws, htab, hrej, hget⟩ :=
      wmark_loop_spec fl bp o.inode (au_br_sort_path qp brinfo) args (au_fhsm_sign fl u)
    simp only [hrej, htab] at hmain
    have hkept := rejected_kept fl o (au_fhsm_sign fl u) (sign_verify fl u) _ ws hget
    by_cases hany : args.any (rejects fl bp (au_br_sort_path qp brinfo) (au_fhsm_sign fl u).brids) = true
    · simp only [hany, if_true] at hmain
      refine ⟨fun h => ⟨fun hr hm t ht hc => absurd hc (hno hr hm t ht), ?_⟩, ?_⟩
      · intro t ht _
        rw [hargs, Option.some.injEq] at ht
        subst ht
        obtain ⟨hver, hmarks⟩ := h .rejected _ hmain (Or.inr rfl)
        exact hkept.1 ⟨hver, hmarks rfl _ hargs⟩
      · intro h e t het he
        rw [hmain, Option.some.injEq, Prod.mk.injEq, Option.some.injEq] at het
        obtain ⟨rfl, rfl⟩ := het
        obtain ⟨hver, hmarks⟩ := hkept.2 (h.args _ hargs hany)
        refine ⟨hver, fun _ t₁ ht₁ => ?_⟩
        rw [hargs, Option.some.injEq] at ht₁
        rw [hmarks, ht₁]
    · simp only [hany, Bool.false_eq_true, if_false] at hmain
      refine ⟨fun h => ⟨fun hr hm t ht hc => absurd hc (hno hr hm t ht), ?_⟩, ?_⟩
      · intro t ht hc
        rw [hargs, Option.some.injEq] at ht
        subst ht
        exact absurd hc hany
      · intro h e t het he
        rw [hmain, Option.some.injEq, Prod.mk.injEq, Option.some.injEq] at het
        obtain ⟨rfl, rfl⟩ := het
        exact ⟨sign_verify fl _, fun hc => by cases hc⟩

end Signature

/-! ## Two arguments, the second one malformed -/

/-- two FHSM branches, /a and /b -/
def twoFhsm : List Brinfo := [⟨0, AuBrAttr_FHSM, [47, 97]⟩, ⟨1, AuBrAttr_FHSM, [47, 98]⟩]

def bridSort : Qsort bridOrd (Wmark.brid (F := ℚ)) := Qsort.insertion bridOrd Wmark.brid

def pathSort : Qsort strcmp Brinfo.path := Qsort.insertion strcmp Brinfo.path

def pathSearch : Bsearch strcmp Brinfo.path := Bsearch.linear strcmp Brinfo.path

/-- every system call succeeds, pages of 4 KiB -/
def allOk : ShmSys := ⟨true, true, true, true, 4096⟩

/-- the table that a first run with the two branches leaves -/
def twoTable : Aufhsm ℚ := au_fhsm_sign ratFloats (au_fhsm_sort_brid bridSort (fhsm_create ratFloats 2 twoFhsm))

/-- `50-25` is accepted and written -/
theorem signature_kept_iff_accepted :
    au_fhsm_sign_verify ratFloats twoTable = true ∧
      (SignatureKept ratFloats bridSort pathSort pathSearch ⟨false, false, false⟩ ⟨allOk, true, true⟩ (some twoTable)
          twoFhsm [[53, 48, 45, 50, 53]] ↔
        NothingSpoiled ratFloats bridSort pathSort pathSearch ⟨false, false, false⟩ ⟨allOk, true, true⟩ (some twoTable)
          twoFhsm [[53, 48, 45, 50, 53]]) :=
  ⟨sign_verify ratFloats _, signature_kept_iff ratFloats bridSort pathSort pathSearch _ _ (some twoTable) twoFhsm _
    fun t ht => by rw [← Option.some.inj ht]; exact sign_verify ratFloats _⟩

/-- **A rejected argument behind an accepted one.** `50-25 x`: the run ends at `x`, with the watermarks of `50-25` in
the table and the checksum of the old ones. -/
theorem signature_lost :
    au_fhsm_sign_verify ratFloats twoTable = true ∧
      ¬ SignatureKept ratFloats bridSort pathSort pathSearch ⟨false, false, false⟩ ⟨allOk, true, true⟩ (some twoTable)
          twoFhsm [[53, 48, 45, 50, 53], [120]] := by
  refine ⟨sign_verify ratFloats _, ?_⟩
  intro h
  have hmain : aufhsm_main ratFloats bridSort pathSort pathSearch ⟨false, false, false⟩ ⟨allOk, true, true⟩
      (some twoTable) twoFhsm [[53, 48, 45, 50, 53], [120]] =
      some (.rejected, some { twoTable with wmark := twoTable.wmark.map fun w => { w with block := (1 / 2, 3 / 4) } }) := by
    decide +kernel
  obtain ⟨hver, -⟩ := h .rejected _ hmain (Or.inr rfl)
  revert hver
  decide +kernel

end AufsUtil.Fhsm
