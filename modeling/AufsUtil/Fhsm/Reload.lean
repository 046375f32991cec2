/-
Loading the watermarks into the daemon (`au_fhsmd_load` and `fhsmd_comm` in `fhsm/event.c`, au_fhsm_load of
`fhsm/fhsm.c`, `fhsm/shm.c`).

The daemon works on a private copy of the table (`lcopy`) and on a mapping it shares with its children (`comm`), which
has one entry for every record of the table. au_fhsmd_load replaces both, one after the other, with every system call on
the way as an input. The old copy is freed first. The event loop goes on when a reload has failed.

- `au_fhsmd_load_cases`: what becomes of the copy and of the mapping, in terms of the inputs.
- `reload_usable_iff`: the daemon stays usable exactly if the table loads, and either the new mapping comes about or the
  old one is kept and the table has kept its size.
- `load_refines`: the event loop of `Fhsm/Daemon.lean` makes this step, with what it needs of the inputs (`LoadRes`).

What the model keeps of C:
- fhsmd_comm does not set `p` before au_shm_create, and returns it when that fails: an uninitialised pointer, or
  MAP_FAILED (`wild`). au_fhsmd_load stores the message through it, which is the end of the process (`none`);
- mmap(2) of no bytes fails;
- a munmap(2) or close(2) that only undoes a failure changes nothing that is looked at later.
-/
import Mathlib.Tactic
import AufsUtil.Fhsm.Control
import AufsUtil.Fhsm.Turnover
import AufsUtil.Fhsm.Daemon

namespace AufsUtil.Fhsm.Reload

variable {F : Type}

/-! ## Data -/

/-- a pointer to shared memory -/
inductive Ptr (α : Type) where
  | null
  | map (a : α)
  | wild
deriving DecidableEq, Repr

/-- struct aufhsmd_comm -/
structure Comm where
  msg : Msg
  stbr : List (Stbr Stfs)
deriving DecidableEq, Repr

def Comm.nstbr (c : Comm) : ℕ := c.stbr.length

/-- new shared memory for n entries -/
def Comm.zeroed (n : ℕ) : Comm := ⟨.NONE, List.replicate n ⟨0, ⟨0, 0, 0, 0⟩⟩⟩

/-- struct aufhsmd: the two pointers that are replaced -/
structure Fhsmd (F : Type) where
  lcopy : Option (Aufhsm F)
  comm : Ptr Comm
deriving DecidableEq, Repr

/-- sizeof(*comm) * sizeof(*comm->stbr) * nstbr -/
def au_fhsmd_comm_len (nstbr : ℕ) : ℕ := 8 * 40 * nstbr

/-! ## System calls -/

structure OpenSys where
  shm_open : Bool
  fcntl : Bool
  fstatfs : Bool
deriving DecidableEq, Repr

structure MapSys extends OpenSys where
  fstat : Bool
  mmap : Bool
deriving DecidableEq, Repr

structure LoadSys extends MapSys where
  malloc : Bool
  munmap : Bool
  close : Bool
deriving DecidableEq, Repr

/-- `uninit`: the pointer that fhsmd_comm does not set happens to be NULL -/
structure CommSys extends OpenSys where
  ftruncate : Bool
  mmap : Bool
  close : Bool
  shm_unlink : Bool
  uninit : Bool
deriving DecidableEq, Repr

structure ReloadSys where
  load : LoadSys
  munmap : Bool
  comm : CommSys
deriving DecidableEq, Repr

/-! ## Loading -/

/-- open and lock -/
def au_shm_open (sys : OpenSys) : Bool := sys.shm_open && sys.fcntl && sys.fstatfs

/-- open, lock, and mmap -/
def au_shm_map (shm : Option (Aufhsm F)) (sys : MapSys) : Option (Aufhsm F) :=
  if !au_shm_open sys.toOpenSys then none
  else if !sys.fstat then none
  else if sys.mmap then shm else none

def fhsm_map (fl : Floats F) (shm : Option (Aufhsm F)) (sys : MapSys) : Option (Aufhsm F) :=
  match au_shm_map shm sys with
  | none => none
  | some p => if au_fhsm_sign_verify fl p then some p else none

/-- the copy; its memory is lost when munmap(2) or close(2) fails -/
def au_fhsm_load (fl : Floats F) (shm : Option (Aufhsm F)) (sys : LoadSys) : Option (Aufhsm F) :=
  match fhsm_map fl shm sys.toMapSys with
  | none => none
  | some fhsm =>
    let p := if sys.malloc && sys.munmap then some fhsm else none
    if sys.close then p else none

/-- create, lock, and mmap: err and `*p`, which holds `zero` when all went well -/
def au_shm_create {α : Type} (len : ℕ) (sys : CommSys) (zero : α) (p : Ptr α) : ℤ × Ptr α :=
  if !au_shm_open sys.toOpenSys then (-1, p)
  else if !sys.ftruncate then (-1, p)
  else if sys.mmap && len != 0 then (0, .map zero)
  else (-1, .wild)

def fhsmd_comm (nwmark : ℕ) (sys : CommSys) : Ptr Comm :=
  let r := au_shm_create (au_fhsmd_comm_len nwmark) sys (Comm.zeroed nwmark) (if sys.uninit then .null else .wild)
  if r.1 ≠ 0 then r.2
  else if !sys.close then .null
  else if !sys.shm_unlink then .null
  else r.2

/-- the end of au_fhsmd_load: the new mapping, with the old message -/
def load_comm (d : Fhsmd F) (nwmark : ℕ) (msg : Msg) (sys : CommSys) : Option (ℤ × Fhsmd F) :=
  match fhsmd_comm nwmark sys with
  | .null => some (-1, { d with comm := .null })
  | .map c => some (0, { d with comm := .map { c with msg := msg } })
  | .wild => none

/-- err and the two pointers; `none` if the process is gone -/
def au_fhsmd_load (fl : Floats F) (shm : Option (Aufhsm F)) (d : Fhsmd F) (sys : ReloadSys) : Option (ℤ × Fhsmd F) :=
  let n := (d.lcopy.map Aufhsm.nwmark).getD 0
  match au_fhsm_load fl shm sys.load with
  | none => some (-1, { d with lcopy := none })
  | some t =>
    let d := { d with lcopy := some t }
    if n > t.nwmark then some (-1, d)
    else
      match d.comm with
      | .map c => if !sys.munmap then some (-1, d) else load_comm d t.nwmark c.msg sys.comm
      | .null => load_comm d t.nwmark .NONE sys.comm
      | .wild => none

/-! ## What the calls lead to -/

/-- every call of au_fhsm_load succeeds -/
def LoadSys.Ok (sys : LoadSys) : Prop :=
  au_shm_open sys.toOpenSys = true ∧ sys.fstat = true ∧ sys.mmap = true ∧ sys.malloc = true ∧ sys.munmap = true ∧
    sys.close = true

/-- au_shm_create maps a file of len bytes -/
def CommSys.creates (sys : CommSys) (len : ℕ) : Bool :=
  au_shm_open sys.toOpenSys && sys.ftruncate && sys.mmap && len != 0

/-- every call of fhsmd_comm succeeds, for a mapping of len bytes -/
def CommSys.Ok (sys : CommSys) (len : ℕ) : Prop :=
  sys.creates len = true ∧ sys.close = true ∧ sys.shm_unlink = true

theorem au_shm_map_eq_some {shm : Option (Aufhsm F)} {sys : MapSys} {t : Aufhsm F} :
    au_shm_map shm sys = some t ↔
      shm = some t ∧ au_shm_open sys.toOpenSys = true ∧ sys.fstat = true ∧ sys.mmap = true := by
  unfold au_shm_map
  cases au_shm_open sys.toOpenSys <;> cases sys.fstat <;> cases sys.mmap <;> simp

theorem fhsm_map_eq_some {fl : Floats F} {shm : Option (Aufhsm F)} {sys : MapSys} {t : Aufhsm F} :
    fhsm_map fl shm sys = some t ↔ au_shm_map shm sys = some t ∧ au_fhsm_sign_verify fl t = true := by
  unfold fhsm_map
  cases au_shm_map shm sys with
  | none => simp
  | some u =>
    by_cases hv : au_fhsm_sign_verify fl u = true
    · simp only [if_pos hv, Option.some.injEq]
      exact ⟨fun h => ⟨h, h ▸ hv⟩, And.left⟩
    · simp only [if_neg hv, Option.some.injEq]
      exact ⟨nofun, fun ⟨h, hv'⟩ => absurd (h ▸ hv') hv⟩

/-- a copy is made exactly if there is a table that verifies and every call succeeds -/
theorem au_fhsm_load_eq_some {fl : Floats F} {shm : Option (Aufhsm F)} {sys : LoadSys} {t : Aufhsm F} :
    au_fhsm_load fl shm sys = some t ↔ shm = some t ∧ au_fhsm_sign_verify fl t = true ∧ sys.Ok := by
  have hload : au_fhsm_load fl shm sys = some t ↔
      fhsm_map fl shm sys.toMapSys = some t ∧ sys.malloc = true ∧ sys.munmap = true ∧ sys.close = true := by
    unfold au_fhsm_load
    cases fhsm_map fl shm sys.toMapSys <;> cases sys.malloc <;> cases sys.munmap <;> cases sys.close <;> simp
  rw [hload, fhsm_map_eq_some, au_shm_map_eq_some]
  unfold LoadSys.Ok
  tauto

theorem au_shm_create_cases {α : Type} (len : ℕ) (sys : CommSys) (zero : α) (p : Ptr α) :
    (sys.creates len = true ∧ au_shm_create len sys zero p = (0, .map zero)) ∨
      (sys.creates len = false ∧
        (au_shm_create len sys zero p = (-1, p) ∨ au_shm_create len sys zero p = (-1, .wild))) := by
  unfold au_shm_create CommSys.creates
  cases au_shm_open sys.toOpenSys <;> cases sys.ftruncate <;> cases sys.mmap <;> cases len != 0 <;> simp

/-- fhsmd_comm returns a mapping exactly if every call succeeds -/
theorem fhsmd_comm_eq_map {n : ℕ} {sys : CommSys} {c : Comm} :
    fhsmd_comm n sys = .map c ↔ c = Comm.zeroed n ∧ sys.Ok (au_fhsmd_comm_len n) := by
  unfold fhsmd_comm CommSys.Ok
  rcases au_shm_create_cases (au_fhsmd_comm_len n) sys (Comm.zeroed n) (if sys.uninit then .null else .wild) with
    ⟨hc, hr⟩ | ⟨hc, hr | hr⟩
  · rw [hr, hc]
    cases sys.close <;> cases sys.shm_unlink <;> simp [eq_comm]
  · rw [hr, hc]
    cases sys.uninit <;> simp
  · rw [hr, hc]
    simp

/-- only a failed au_shm_create leaves a wild pointer -/
theorem fhsmd_comm_eq_wild {n : ℕ} {sys : CommSys} (h : fhsmd_comm n sys = .wild) :
    sys.creates (au_fhsmd_comm_len n) = false := by
  unfold fhsmd_comm at h
  rcases au_shm_create_cases (au_fhsmd_comm_len n) sys (Comm.zeroed n) (if sys.uninit then .null else .wild) with
    ⟨_, hr⟩ | ⟨hc, _⟩
  · rw [hr] at h
    cases hclose : sys.close <;> cases hunlink : sys.shm_unlink <;> simp [hclose, hunlink] at h
  · exact hc

/-! ## Whether the daemon stays usable -/

section Usable

variable (fl : Floats F) (shm : Option (Aufhsm F)) (sys : ReloadSys)

/-- both pointers are good -/
def Fhsmd.ready (t : Aufhsm F) (c : Comm) : Fhsmd F := ⟨some t, .map c⟩

/-- au_fhsmd_load comes back, and when it reports an error both pointers are still good, and still fit together -/
def StaysUsable (t : Aufhsm F) (c : Comm) : Prop :=
  ∃ err d, au_fhsmd_load fl shm (.ready t c) sys = some (err, d) ∧
    (err ≠ 0 → ∃ t' c', d = .ready t' c' ∧ (c.nstbr = t.nwmark → c'.nstbr = t'.nwmark))

/-- the outcomes of a reload over a mapping c, when the old copy had n records (none if there was no copy) -/
inductive Loaded (n : ℕ) (c : Comm) : Option (ℤ × Fhsmd F) → Prop
  | missing (h : ∀ u, shm = some u → au_fhsm_sign_verify fl u = true → ¬ sys.load.Ok) :
      Loaded n c (some (-1, ⟨none, .map c⟩))
  | fewer (u : Aufhsm F) (hshm : shm = some u) (hv : au_fhsm_sign_verify fl u = true) (hsys : sys.load.Ok)
      (hn : u.nwmark < n) : Loaded n c (some (-1, .ready u c))
  | kept (u : Aufhsm F) (hshm : shm = some u) (hv : au_fhsm_sign_verify fl u = true) (hsys : sys.load.Ok)
      (hn : n ≤ u.nwmark) (hmap : sys.munmap = false) : Loaded n c (some (-1, .ready u c))
  | lost (u : Aufhsm F) (hshm : shm = some u) (hv : au_fhsm_sign_verify fl u = true) (hsys : sys.load.Ok)
      (hn : n ≤ u.nwmark) (hmap : sys.munmap = true) (hcomm : ¬ sys.comm.Ok (au_fhsmd_comm_len u.nwmark))
      {r : Option (ℤ × Fhsmd F)}
      (hr : sys.comm.creates (au_fhsmd_comm_len u.nwmark) = false ∧ r = none ∨ r = some (-1, ⟨some u, .null⟩)) :
      Loaded n c r
  | renewed (u : Aufhsm F) (hshm : shm = some u) (hv : au_fhsm_sign_verify fl u = true) (hsys : sys.load.Ok)
      (hn : n ≤ u.nwmark) (hmap : sys.munmap = true) (hcomm : sys.comm.Ok (au_fhsmd_comm_len u.nwmark)) :
      Loaded n c (some (0, .ready u { Comm.zeroed u.nwmark with msg := c.msg }))

theorem au_fhsmd_load_cases (lcopy : Option (Aufhsm F)) (c : Comm) :
    Loaded fl shm sys ((lcopy.map Aufhsm.nwmark).getD 0) c (au_fhsmd_load fl shm ⟨lcopy, .map c⟩ sys) := by
  unfold au_fhsmd_load
  cases hload : au_fhsm_load fl shm sys.load with
  | none =>
    refine .missing fun u hu hv hsys => ?_
    rw [au_fhsm_load_eq_some.2 ⟨hu, hv, hsys⟩] at hload
    exact absurd hload nofun
  | some u =>
    obtain ⟨hshm, hv, hsys⟩ := au_fhsm_load_eq_some.1 hload
    simp only
    by_cases hn : (lcopy.map Aufhsm.nwmark).getD 0 > u.nwmark
    · rw [if_pos hn]
      exact .fewer u hshm hv hsys hn
    rw [if_neg hn]
    have hle := not_lt.1 hn
    cases hmap : sys.munmap with
    | false => exact .kept u hshm hv hsys hle hmap
    | true =>
      simp only [Bool.not_true, Bool.false_eq_true, if_false, load_comm]
      cases hc : fhsmd_comm u.nwmark sys.comm with
      | map c' =>
        obtain ⟨rfl, hok⟩ := fhsmd_comm_eq_map.1 hc
        exact .renewed u hshm hv hsys hle hmap hok
      | null =>
        refine .lost u hshm hv hsys hle hmap (fun hok => ?_) (Or.inr rfl)
        rw [fhsmd_comm_eq_map.2 ⟨rfl, hok⟩] at hc
        exact absurd hc nofun
      | wild =>
        refine .lost u hshm hv hsys hle hmap (fun hok => ?_) (Or.inl ⟨fhsmd_comm_eq_wild hc, rfl⟩)
        rw [fhsmd_comm_eq_map.2 ⟨rfl, hok⟩] at hc
        exact absurd hc nofun

/-- every call succeeds, for a table of n records -/
def ReloadSys.Ok (n : ℕ) : Prop := sys.load.Ok ∧ sys.munmap = true ∧ sys.comm.Ok (au_fhsmd_comm_len n)

/-- over a mapping a reload of a table that verifies succeeds exactly if every call does and no record is missing -/
theorem load_eq_zero {u : Aufhsm F} (hv : au_fhsm_sign_verify fl u = true) (lcopy : Option (Aufhsm F)) (c : Comm)
    (d : Fhsmd F) : au_fhsmd_load fl (some u) ⟨lcopy, .map c⟩ sys = some (0, d) ↔
      (lcopy.map Aufhsm.nwmark).getD 0 ≤ u.nwmark ∧ sys.Ok u.nwmark ∧
        d = .ready u { Comm.zeroed u.nwmark with msg := c.msg } := by
  have hcases := au_fhsmd_load_cases fl (some u) sys lcopy c
  generalize au_fhsmd_load fl (some u) ⟨lcopy, .map c⟩ sys = r at hcases
  unfold ReloadSys.Ok
  cases hcases with
  | missing h => exact iff_of_false (by simp) fun ⟨_, hok, _⟩ => h u rfl hv hok.1
  | fewer v hshm _ _ hn =>
    obtain rfl := Option.some.inj hshm
    exact iff_of_false (by simp) fun ⟨hle, _⟩ => absurd hn (not_lt.2 hle)
  | kept v hshm _ _ _ hmap => exact iff_of_false (by simp) fun ⟨_, hok, _⟩ => Bool.eq_false_iff.1 hmap hok.2.1
  | lost v hshm _ _ _ _ hcomm hr =>
    obtain rfl := Option.some.inj hshm
    refine iff_of_false ?_ fun ⟨_, hok, _⟩ => hcomm hok.2.2
    rcases hr with ⟨-, rfl⟩ | rfl <;> simp
  | renewed v hshm _ hsys hn hmap hcomm =>
    obtain rfl := Option.some.inj hshm
    simp only [Option.some.injEq, Prod.mk.injEq, true_and]
    exact ⟨fun h => ⟨hn, ⟨hsys, hmap, hcomm⟩, h.symm⟩, fun h => h.2.2.symm⟩

/-- a table that verifies is there and can be copied; and either the mapping is replaced and the new one comes about, or
it is not replaced, for fewer records or a failing munmap(2), and fits the new copy if it fitted the old one -/
def Reloadable (t : Aufhsm F) (c : Comm) : Prop :=
  ∃ u, shm = some u ∧ au_fhsm_sign_verify fl u = true ∧ sys.load.Ok ∧
    if t.nwmark ≤ u.nwmark ∧ sys.munmap = true then sys.comm.Ok (au_fhsmd_comm_len u.nwmark)
    else c.nstbr = t.nwmark → c.nstbr = u.nwmark

variable {shm} in
theorem reloadable_iff {u : Aufhsm F} (hshm : shm = some u) (hv : au_fhsm_sign_verify fl u = true) (hsys : sys.load.Ok)
    (t : Aufhsm F) (c : Comm) : Reloadable fl shm sys t c ↔
      if t.nwmark ≤ u.nwmark ∧ sys.munmap = true then sys.comm.Ok (au_fhsmd_comm_len u.nwmark)
      else c.nstbr = t.nwmark → c.nstbr = u.nwmark := by
  unfold Reloadable
  refine ⟨fun ⟨v, hshm', _, _, h⟩ => ?_, fun h => ⟨u, hshm, hv, hsys, h⟩⟩
  rw [hshm, Option.some.injEq] at hshm'
  exact hshm' ▸ h

/-- what staying usable asks of an error after which the old mapping is still there -/
theorem usable_old_mapping {t u : Aufhsm F} {c : Comm}
    (h : au_fhsmd_load fl shm (.ready t c) sys = some (-1, .ready u c)) :
    StaysUsable fl shm sys t c ↔ (c.nstbr = t.nwmark → c.nstbr = u.nwmark) := by
  unfold StaysUsable
  rw [h]
  refine ⟨?_, fun hfit => ⟨-1, _, rfl, fun _ => ⟨u, c, rfl, hfit⟩⟩⟩
  rintro ⟨err, d, hr, hgood⟩
  obtain ⟨rfl, rfl⟩ := Prod.mk.inj (Option.some.inj hr)
  obtain ⟨t', c', hd, hfit⟩ := hgood (by decide)
  obtain ⟨ht, hc⟩ := Fhsmd.mk.inj hd
  rw [Option.some.inj ht, Ptr.map.inj hc]
  rwa [Ptr.map.inj hc] at hfit

/-- **A failed reload leaves the daemon usable exactly in these cases.** For every state with good pointers and every
outcome of every call. -/
theorem reload_usable_iff (t : Aufhsm F) (c : Comm) : StaysUsable fl shm sys t c ↔ Reloadable fl shm sys t c := by
  have hcases : Loaded fl shm sys t.nwmark c (au_fhsmd_load fl shm (.ready t c) sys) :=
    au_fhsmd_load_cases fl shm sys (some t) c
  generalize hrun : au_fhsmd_load fl shm (.ready t c) sys = r at hcases
  cases hcases with
  | missing h =>
    refine iff_of_false ?_ fun ⟨u, hu, hv, hsys, _⟩ => h u hu hv hsys
    rintro ⟨err, d, hr, hgood⟩
    rw [hrun] at hr
    obtain ⟨rfl, rfl⟩ := Prod.mk.inj (Option.some.inj hr)
    obtain ⟨t', c', hd, -⟩ := hgood (by decide)
    exact absurd (congrArg Fhsmd.lcopy hd) nofun
  | fewer u hshm hv hsys hn =>
    rw [usable_old_mapping fl shm sys hrun, reloadable_iff fl sys hshm hv hsys, if_neg (by omega)]
  | kept u hshm hv hsys hn hmap =>
    rw [usable_old_mapping fl shm sys hrun, reloadable_iff fl sys hshm hv hsys, if_neg (by simp [hmap])]
  | lost u hshm hv hsys hn hmap hcomm hr =>
    rw [reloadable_iff fl sys hshm hv hsys, if_pos ⟨hn, hmap⟩]
    refine iff_of_false ?_ hcomm
    rintro ⟨err, d, hrun', hgood⟩
    rw [hrun] at hrun'
    rcases hr with ⟨-, rfl⟩ | rfl
    · exact absurd hrun' nofun
    · obtain ⟨rfl, rfl⟩ := Prod.mk.inj (Option.some.inj hrun')
      obtain ⟨t', c', hd, -⟩ := hgood (by decide)
      exact absurd (congrArg Fhsmd.comm hd) nofun
  | renewed u hshm hv hsys hn hmap hcomm =>
    rw [reloadable_iff fl sys hshm hv hsys, if_pos ⟨hn, hmap⟩]
    exact iff_of_true ⟨0, _, hrun, fun h => absurd rfl h⟩ hcomm

/-- everything went well, but the shared memory with the table is gone: there is no copy any more -/
theorem reload_leaves_no_copy :
    ¬ StaysUsable ratFloats none ⟨⟨⟨⟨false, true, true⟩, true, true⟩, true, true, true⟩, true,
      ⟨⟨true, true, true⟩, true, true, true, true, false⟩⟩ twoTable (Comm.zeroed 2) := by
  rintro ⟨err, d, hr, hgood⟩
  obtain ⟨rfl, rfl⟩ := Prod.mk.inj (Option.some.inj hr)
  obtain ⟨t', c', hd, -⟩ := hgood (by decide)
  exact absurd (congrArg Fhsmd.lcopy hd) nofun

end Usable

/-! ## The event loop -/

/-- the message in the mapping -/
def Ptr.msg : Ptr Comm → Option Msg
  | .map c => some c.msg
  | .null | .wild => none

/-- what the event loop knows of the two pointers -/
structure Shows (D : Daemon) (d : Fhsmd F) : Prop where
  lcopy : D.lcopy = d.lcopy.map Aufhsm.nwmark
  null : D.comm = none ↔ d.comm = .null
  tame : d.comm ≠ .wild
  msg : D.comm.bind (D.msgs[·]?) = d.comm.msg

/-- the outcome of fhsmd_comm as the event loop sees it -/
def Ptr.res : Ptr Comm → CommRes
  | .null => .null
  | .map _ => .ok
  | .wild => .wild

/-- the inputs as the event loop sees them -/
def load_res (fl : Floats F) (shm : Option (Aufhsm F)) (sys : ReloadSys) : LoadRes :=
  let lcopy := (au_fhsm_load fl shm sys.load).map Aufhsm.nwmark
  ⟨lcopy, sys.munmap, (fhsmd_comm (lcopy.getD 0) sys.comm).res⟩

/-- the new mapping is the last one -/
theorem Shows.load_comm {D : Daemon} {d : Fhsmd F} {t : Aufhsm F} (h : Shows D d) (sys : CommSys) :
    Option.Rel (fun a b => a.1 = b.1 ∧ Shows a.2 b.2)
      (match (fhsmd_comm t.nwmark sys).res with
        | .ok => some (0, { D with
            lcopy := some t.nwmark, comm := some D.msgs.length,
            msgs := D.msgs ++ [(D.comm.bind (D.msgs[·]?)).getD .NONE], reloads := D.forked :: D.reloads })
        | .null => some (-1, { D with lcopy := some t.nwmark, comm := none })
        | .wild => none)
      (Reload.load_comm { d with lcopy := some t } t.nwmark (d.comm.msg.getD .NONE) sys) := by
  unfold Reload.load_comm
  cases fhsmd_comm t.nwmark sys with
  | null => exact .some ⟨rfl, rfl, by simp, by simp, rfl⟩
  | wild => exact .none
  | map c =>
    refine .some ⟨rfl, rfl, by simp, by simp, ?_⟩
    simp [Ptr.msg, h.msg]

/-- au_fhsmd_load does what the event loop takes it to do -/
theorem load_refines (fl : Floats F) (shm : Option (Aufhsm F)) (sys : ReloadSys) {D : Daemon} {d : Fhsmd F}
    (h : Shows D d) :
    Option.Rel (fun a b => a.1 = b.1 ∧ Shows a.2 b.2) (Fhsm.au_fhsmd_load D (load_res fl shm sys))
      (au_fhsmd_load fl shm d sys) := by
  unfold Fhsm.au_fhsmd_load au_fhsmd_load load_res
  cases au_fhsm_load fl shm sys.load with
  | none => exact .some ⟨rfl, rfl, h.null, h.tame, h.msg⟩
  | some t =>
    have hcomm := h.load_comm (t := t) sys.comm
    simp only [Option.map_some, Option.getD_some, h.lcopy]
    by_cases hn : (d.lcopy.map Aufhsm.nwmark).getD 0 > t.nwmark
    · rw [if_pos hn, if_pos hn]
      exact .some ⟨rfl, rfl, h.null, h.tame, h.msg⟩
    rw [if_neg hn, if_neg hn]
    cases hd : d.comm with
    | wild => exact absurd hd h.tame
    | null =>
      rw [h.null.2 hd]
      rw [h.null.2 hd, hd] at hcomm
      exact hcomm
    | map c =>
      have hsome : D.comm.isSome = true := by
        rw [Option.isSome_iff_ne_none, Ne, h.null, hd]
        exact nofun
      rw [hsome]
      cases sys.munmap with
      | false =>
        refine .some ⟨rfl, rfl, ?_, ?_, ?_⟩
        · exact hd ▸ h.null
        · exact hd ▸ h.tame
        · exact hd ▸ h.msg
      | true =>
        rw [hd] at hcomm
        exact hcomm

end AufsUtil.Fhsm.Reload
