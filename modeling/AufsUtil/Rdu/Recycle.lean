/-
Slots that were given back, and what their streams read then (`libau/rdu.c`, `libau/rdu_lib.c`).

rdu_free clears every pointer of a slot but keeps its npos, and rdu_readdir skips rdu_init when the position is not 0
and npos is not 0. A stream whose rdu_init failed has no slot any more, but keeps its position, and seekdir moves it
back to where telldir was. Runs here are those of `Readdir`, with any call failing and each read by the function of its
choice (`Act`); `Proc` adds the history: the descriptors whose last rdu_init failed.

- `prepare`: the slot that a read has when it comes to rdu_pos. `rdu_readdir_early` and `rdu_readdir_late` say that the
  read ends before, or is rdu_pos of that slot.
- `inv_step`: in every state of every run, a stream whose last rdu_init succeeded has its listing in its slot, with npos
  its length; one whose last rdu_init failed has no slot, or one without pos[] and dirent, as free slots are.
- `array_live_iff`: in a run, pos[] is the stream's own listing whenever rdu_pos comes to look into it, if and only if
  no readdir_r comes, at a position other than 0, from a stream whose last rdu_init failed to a slot with more entries
  than that. readdir is saved by the dirent, which rdu_free takes away with the rest.
-/
import Mathlib.Tactic
import AufsUtil.Rdu.MixedReads

namespace AufsUtil.Rdu.Recycle

open AufsUtil.CStr AufsUtil.Runs AufsUtil.Keyed

/-! ## A read up to rdu_pos -/

/-- the slot that a read has locked, after the rdu_init that it makes, if any: whether it made one, what that returned,
and the slot; none if the read ends before -/
def prepare (L : Lib) (fd pos : ℕ) (de : Bool) (e : ReadEnv) : Option (Bool × ℤ × Slot) :=
  if !e.fstatfs || (!L.rdu && e.lib_oom) then none
  else
    (rdu_buf_lock { L with rdu := true } fd e.new).1.map fun (_, p) =>
      if pos = 0 ∨ p.npos = 0 then (true, rdu_init p (!de) e.init) else (false, 0, p)

/-- the listing that the read took -/
def taken (init : Bool) (e : ReadEnv) : Option (List RduEnt) := if init then some e.init.listing else none

/-- a read comes to rdu_pos with the slot q, having taken this listing, if any -/
def AtPos (L : Lib) (fd pos : ℕ) (de : Bool) (e : ReadEnv) (q : Slot) (took : Option (List RduEnt)) : Prop :=
  ∃ init, prepare L fd pos de e = some (init, 0, q) ∧ (de || q.de) = true ∧ took = taken init e

section Reads

variable {L L' : Lib} {fd pos i : ℕ} {de : Bool} {e : ReadEnv} {p : Slot}

/-- a read ends before it has a slot -/
theorem rdu_readdir_early (h : prepare L fd pos de e = none) :
    ∃ err L', rdu_readdir L fd pos de e = some ⟨err, none, L', pos, none⟩ ∧ L'.slots = L.slots := by
  unfold prepare at h
  unfold rdu_readdir
  by_cases hst : (!e.fstatfs) = true
  · rw [if_pos hst]
    exact ⟨_, _, rfl, rfl⟩
  by_cases hoom : (!L.rdu && e.lib_oom) = true
  · rw [if_neg hst, if_pos hoom]
    exact ⟨_, _, rfl, rfl⟩
  rw [if_neg (by simp only [Bool.or_eq_true]; exact not_or.2 ⟨hst, hoom⟩)] at h
  rw [if_neg hst, if_neg hoom]
  rcases hlock : rdu_buf_lock { L with rdu := true } fd e.new with ⟨_ | ⟨i, p⟩, M⟩
  · obtain ⟨rfl, -⟩ := rdu_buf_lock_none hlock
    exact ⟨_, _, rfl, rfl⟩
  · rw [hlock] at h
    cases h

/-- a read with a slot: rdu_init fails and the slot is freed, or there is no dirent, or rdu_pos gives the result -/
theorem rdu_readdir_late {init : Bool} {err : ℤ} {q : Slot} (h : prepare L fd pos de e = some (init, err, q)) :
    ∃ i p L', rdu_buf_lock { L with rdu := true } fd e.new = (some (i, p), L') ∧
      ((init = true ∧ rdu_init p (!de) e.init = (err, q)) ∨
        (init = false ∧ err = 0 ∧ q = p ∧ pos ≠ 0 ∧ p.npos ≠ 0)) ∧
      rdu_readdir L fd pos de e =
        (let M : Lib := { L' with slots := L'.slots.set i q }
        if err ≠ 0 then some ⟨err, none, rdu_free M i, pos, none⟩
        else if !de && !q.de then some ⟨-1, none, M, pos, taken init e⟩
        else (rdu_pos q pos).map fun rde => ⟨0, rde, M, pos + 1, taken init e⟩) := by
  unfold prepare at h
  by_cases hbad : (!e.fstatfs || (!L.rdu && e.lib_oom)) = true
  · rw [if_pos hbad] at h
    cases h
  rw [if_neg hbad] at h
  obtain ⟨hst, hoom⟩ := not_or.1 (by simpa only [Bool.or_eq_true] using hbad)
  rcases hlock : rdu_buf_lock { L with rdu := true } fd e.new with ⟨_ | ⟨i, p⟩, L'⟩
  · rw [hlock] at h
    cases h
  rw [hlock, Option.map_some, Option.some.injEq] at h
  refine ⟨i, p, L', rfl, ?_⟩
  unfold rdu_readdir
  rw [if_neg hst, if_neg hoom, hlock]
  dsimp only at h ⊢
  by_cases hinit : pos = 0 ∨ p.npos = 0
  · rw [if_pos hinit] at h
    obtain ⟨rfl, hres⟩ := Prod.mk.inj h
    rw [if_pos hinit, if_pos hinit, hres]
    exact ⟨Or.inl ⟨rfl, rfl⟩, rfl⟩
  · rw [if_neg hinit] at h
    cases h
    obtain ⟨hpos, hnpos⟩ := not_or.1 hinit
    rw [if_neg hinit, if_neg hinit]
    exact ⟨Or.inr ⟨rfl, rfl, rfl, hpos, hnpos⟩, rfl⟩

/-- a read that has a slot got past fstatfs(2) and rdu_lib_init -/
theorem prepare_started {x : Bool × ℤ × Slot} (h : prepare L fd pos de e = some x) :
    e.fstatfs = true ∧ (L.rdu = true ∨ e.lib_oom = false) := by
  unfold prepare at h
  by_cases hbad : (!e.fstatfs || (!L.rdu && e.lib_oom)) = true
  · rw [if_pos hbad] at h
    cases h
  obtain ⟨hst, hoom⟩ := not_or.1 (by simpa only [Bool.or_eq_true] using hbad)
  refine ⟨by simpa using hst, ?_⟩
  cases hrdu : L.rdu with
  | true => exact Or.inl rfl
  | false => exact Or.inr (by simpa [hrdu] using hoom)

/-- the slot of fd before rdu_buf_lock writes fd into it: the one it has, else the first free one, else a new one -/
def handed (L : Lib) (fd : ℕ) (e : NewEnv) : Option Slot :=
  ((slotOf L fd).or (L.slots.find? (·.fd = -1))).or
    (if e.oom || (L.rdu_lim - 1 < L.slots.length && e.append_oom) then none
    else some ⟨fd, e.shwh, false, e.npos, none, false⟩)

theorem rdu_buf_lock_handed (hrdu : L.rdu = true) (e : NewEnv) :
    (rdu_buf_lock L fd e).1.map Prod.snd = (handed L fd e).map ({ · with fd := (fd : ℤ) }) := by
  have hcases := rdu_buf_lock_cases L fd e
  generalize rdu_buf_lock L fd e = r at hcases
  unfold handed
  cases hcases with
  | no_table hno =>
    rw [hno] at hrdu
    cases hrdu
  | @own i p _ hidx hi =>
    have hown : slotOf L fd = some p := by
      rw [slotOf, List.find?_eq_bind_findIdx?_getElem?, hidx]
      exact hi
    rw [hown, Option.some_or, Option.some_or, Option.map_some, Option.map_some, ← (locked_found hidx hi).fd_eq]
  | free _ hown hfree hi =>
    rw [hown, hfree]
    rfl
  | oom _ hown hfree hoom =>
    rw [hown, hfree, if_pos hoom]
    rfl
  | fresh _ hown hfree hroom =>
    rw [hown, hfree, if_neg (by simp [hroom])]
    rfl

/-- whether the table was allocated before plays no part -/
theorem lock_handed (L : Lib) (fd : ℕ) (e : NewEnv) :
    (rdu_buf_lock { L with rdu := true } fd e).1.map Prod.snd = (handed L fd e).map ({ · with fd := (fd : ℤ) }) :=
  rdu_buf_lock_handed rfl e

theorem handed_of_lock {e : NewEnv} (h : rdu_buf_lock { L with rdu := true } fd e = (some (i, p), L')) :
    ∃ x, handed L fd e = some x ∧ p = { x with fd := (fd : ℤ) } := by
  have hmap := lock_handed L fd e
  rw [h, Option.map_some] at hmap
  obtain ⟨x, hx, hp⟩ := Option.map_eq_some_iff.1 hmap.symm
  exact ⟨x, hx, hp.symm⟩

/-- a read that gets past fstatfs(2) and rdu_lib_init, and is handed a slot -/
theorem prepare_handed (hst : e.fstatfs = true) (hlib : L.rdu = true ∨ e.lib_oom = false) {x : Slot}
    (hx : handed L fd e.new = some x) (pos : ℕ) (de : Bool) :
    prepare L fd pos de e =
      some (if pos = 0 ∨ x.npos = 0 then (true, rdu_init { x with fd := (fd : ℤ) } (!de) e.init)
        else (false, 0, { x with fd := (fd : ℤ) })) := by
  have hlock := lock_handed L fd e.new
  rw [hx, Option.map_some] at hlock
  obtain ⟨⟨i, p⟩, hip, hp⟩ := Option.map_eq_some_iff.1 hlock
  obtain rfl : p = { x with fd := (fd : ℤ) } := hp
  have hgood : ¬(!e.fstatfs || (!L.rdu && e.lib_oom)) = true := by
    rcases hlib with hlib | hlib
    · simp [hst, hlib]
    · simp [hst, hlib]
  rw [prepare, if_neg hgood, hip, Option.map_some]

/-- the slot that a read comes to has its descriptor -/
theorem prepare_fd {init : Bool} {err : ℤ} {q : Slot} (h : prepare L fd pos de e = some (init, err, q)) :
    q.fd = fd := by
  obtain ⟨i, p, L', hlock, hq, -⟩ := rdu_readdir_late h
  obtain ⟨x, -, rfl⟩ := handed_of_lock hlock
  rcases hq with ⟨-, hres⟩ | ⟨-, -, rfl, -⟩
  · have hfd := rdu_init_fd { x with fd := (fd : ℤ) } (!de) e.init
    rw [hres] at hfd
    exact hfd
  · rfl

end Reads

/-! ## Runs with the history of failures -/

/-- `failed` is history: the descriptors of the streams whose last rdu_init failed -/
structure Proc where
  sys : Sys
  failed : List ℕ
deriving DecidableEq, Repr

def Proc.init : Proc := ⟨Rdu.init, []⟩

def mark (F : List ℕ) (fd : ℕ) (b : Bool) : List ℕ := if b then fd :: F else F.filter (· ≠ fd)

/-- how the rdu_init that was made ended -/
def remember (F : List ℕ) (fd : ℕ) : Option (Bool × ℤ × Slot) → List ℕ
  | some (true, err, _) => mark F fd (err ≠ 0)
  | _ => F

def history (s : Proc) : Call → List ℕ
  | .opendir fd _ => mark s.failed fd false
  | .read fd e =>
    remember s.failed fd ((s.sys.dirs.find? (·.fd = fd)).bind fun d => prepare s.sys.lib fd d.pos d.de e)
  | _ => s.failed

def next (s : Proc) (c : Call) : Option Proc := (step s.sys c).map fun t => ⟨t, history s c⟩

/-- a call, and whether it is by readdir_r if it is a read -/
structure Act where
  r : Bool
  call : Call

/-- every stream is read by this function -/
def by_fn (r : Bool) (s : Proc) : Proc :=
  { s with sys := { s.sys with dirs := s.sys.dirs.map fun d => { d with de := r } } }

def act (s : Proc) (a : Act) : Option Proc := next (by_fn a.r s) a.call

/-- rdu_pos looks into pos[] only when it is an array of npos entries, the listing that an rdu_init took for this stream
since it was opened -/
def Live (s : Proc) : Call → Prop
  | .read fd e =>
    ∀ d ∈ s.sys.dirs, d.fd = fd → ∀ q took, AtPos s.sys.lib fd d.pos d.de e q took → d.pos < q.npos →
      ∃ l, q.pos = some l ∧ l.length = q.npos ∧ took.or d.listing = some l
  | _ => True

/-- readdir_r at a position other than 0, of a stream whose last rdu_init failed, that gets a slot with more entries -/
structure Lost (s : Proc) (d : Dir) (e : ReadEnv) : Prop where
  by_r : d.de = true
  pos : d.pos ≠ 0
  failed : d.fd ∈ s.failed
  fstatfs : e.fstatfs = true
  lib : s.sys.lib.rdu = true ∨ e.lib_oom = false
  npos : ∃ x, handed s.sys.lib d.fd e.new = some x ∧ d.pos < x.npos

/-- the call is no such read -/
def Guarded (s : Proc) : Call → Prop
  | .read fd e => ∀ d ∈ s.sys.dirs, d.fd = fd → ¬Lost s d e
  | _ => True

theorem mem_mark {F : List ℕ} {fd g : ℕ} {b : Bool} : g ∈ mark F fd b ↔ (g = fd ∧ b = true) ∨ (g ≠ fd ∧ g ∈ F) := by
  cases b with
  | false => simp [mark, and_comm]
  | true => by_cases hg : g = fd <;> simp [mark, hg]

theorem mem_remember_ne {F : List ℕ} {fd g : ℕ} (hg : g ≠ fd) (o : Option (Bool × ℤ × Slot)) :
    g ∈ remember F fd o ↔ g ∈ F := by
  unfold remember
  split
  · simp [mem_mark, hg]
  · exact Iff.rfl

/-! ## The slots of a run -/

/-- a free slot has no pos[] -/
def FreeSlots (L : Lib) : Prop := ∀ p ∈ L.slots, p.fd = -1 → p.pos = none

/-- what the table has for a stream: its listing if the last rdu_init succeeded, no pos[] and no dirent if it failed -/
structure Kept (L : Lib) (F : List ℕ) (d : Dir) : Prop where
  fresh : d.listing = none → d.pos = 0 ∧ ∀ t ∈ d.told, t = 0
  held : d.fd ∉ F → ∀ l, d.listing = some l → ∃ p, slotOf L d.fd = some p ∧ p.pos = some l ∧ p.npos = l.length
  lost : d.fd ∈ F → ∀ p, slotOf L d.fd = some p → p.pos = none ∧ p.de = false

structure Inv (s : Proc) : Prop where
  nodup : (s.sys.dirs.map Dir.fd).Nodup
  tidy : Tidy s.sys.lib s.sys.opened
  freed : FreeSlots s.sys.lib
  dirs : ∀ d ∈ s.sys.dirs, Kept s.sys.lib s.failed d

section Slots

variable {L L' : Lib} {fd i : ℕ} {p : Slot}

theorem FreeSlots.lock (hf : FreeSlots L) {e : NewEnv} (h : rdu_buf_lock L fd e = (some (i, p), L')) :
    FreeSlots L' := by
  have hp : p.fd = fd → p.fd = -1 → p.pos = none := fun hfd hfree => absurd (hfree.symm.trans hfd) (neg_one_ne fd)
  intro q hq
  rcases rdu_buf_lock_slots h with ⟨hs, -, -⟩ | ⟨x, -, -, -, rfl, hs⟩ | ⟨-, -, hfd, -, hs⟩
  · exact hf q (hs ▸ hq)
  · rw [hs] at hq
    rcases List.mem_or_eq_of_mem_set hq with hq | rfl
    · exact hf q hq
    · exact hp rfl
  · rw [hs] at hq
    rcases List.mem_append.1 hq with hq | hq
    · exact hf q hq
    · obtain rfl := List.mem_singleton.1 hq
      exact hp hfd

theorem FreeSlots.set (hf : FreeSlots L) {q : Slot} (hq : q.fd = fd) :
    FreeSlots { L with slots := L.slots.set i q } := by
  intro x hx
  rcases List.mem_or_eq_of_mem_set hx with hx | rfl
  · exact hf x hx
  · exact fun hfree => absurd (hfree.symm.trans hq) (neg_one_ne fd)

theorem FreeSlots.free (hf : FreeSlots L) (hi : L.slots[i]? = some p) : FreeSlots (rdu_free L i) := by
  intro x hx
  rw [rdu_free_slots hi] at hx
  rcases List.mem_or_eq_of_mem_set hx with hx | rfl
  · exact hf x hx
  · exact fun _ => rfl

theorem Kept.congr {F F' : List ℕ} {d : Dir} (h : Kept L F d) (hslot : slotOf L' d.fd = slotOf L d.fd)
    (hF : d.fd ∈ F' ↔ d.fd ∈ F) : Kept L' F' d := by
  refine ⟨h.fresh, ?_, ?_⟩
  · rw [hslot, hF]
    exact h.held
  · rw [hslot, hF]
    exact h.lost

/-- a stream whose last rdu_init failed gets a slot without pos[] and dirent: its own, a free one, or a new one -/
theorem Kept.handed_lost {F : List ℕ} {d : Dir} (h : Kept L F d) (hF : d.fd ∈ F) (hfree : FreeSlots L)
    (hde : ∀ q ∈ L.slots, q.fd = -1 → q.de = false) {e : NewEnv} {x : Slot} (hx : handed L d.fd e = some x) :
    x.pos = none ∧ x.de = false := by
  unfold handed at hx
  rcases Option.or_eq_some_iff.1 hx with hx | ⟨-, hx⟩
  · rcases Option.or_eq_some_iff.1 hx with hx | ⟨-, hx⟩
    · exact h.lost hF x hx
    · have hmem := List.mem_of_find?_eq_some hx
      have hfd : x.fd = -1 := by simpa using List.find?_some hx
      exact ⟨hfree x hmem hfd, hde x hmem hfd⟩
  · split_ifs at hx
    cases hx
    exact ⟨rfl, rfl⟩

theorem Kept.slot_of_listing {F : List ℕ} {d : Dir} {q : Slot} {l : List RduEnt} (hl : d.listing = some l)
    (hslot : slotOf L d.fd = some q) (hheld : d.fd ∉ F → q.pos = some l ∧ q.npos = l.length)
    (hlost : d.fd ∈ F → q.pos = none ∧ q.de = false) : Kept L F d := by
  refine ⟨fun hnone => ?_, fun hF l' hl' => ?_, fun hF p hp => ?_⟩
  · rw [hl] at hnone
    cases hnone
  · rw [hl] at hl'
    cases hl'
    exact ⟨q, hslot, hheld hF⟩
  · rw [hslot] at hp
    cases hp
    exact hlost hF

theorem slotOf_none {opened : ℕ → Prop} (ht : Tidy L opened) (hno : ¬opened fd) : slotOf L fd = none := by
  rw [slotOf, List.find?_eq_none]
  intro p hp heq
  have hpfd : p.fd = fd := by simpa using heq
  rcases ht.owned p hp with hfree | ⟨f, hf, hpf⟩
  · exact neg_one_ne fd (hfree.symm.trans hpfd)
  · obtain rfl := Nat.cast_injective (hpf.symm.trans hpfd)
    exact hno hf

end Slots

section Steps

variable {s s' : Proc} {d : Dir} {e : ReadEnv}

theorem Inv.handed_lost (hi : Inv s) (hd : d ∈ s.sys.dirs) (hF : d.fd ∈ s.failed) {x : Slot}
    (hx : handed s.sys.lib d.fd e.new = some x) : x.pos = none ∧ x.de = false :=
  (hi.dirs d hd).handed_lost hF hi.freed hi.tidy.freed hx

/-- a read that found a slot and did not fail in rdu_init: what the slot then holds -/
theorem Inv.prepared (hi : Inv s) (hd : d ∈ s.sys.dirs) {init : Bool} {q : Slot}
    (h : prepare s.sys.lib d.fd d.pos d.de e = some (init, 0, q)) :
    ∃ l, (taken init e).or d.listing = some l ∧
      (d.fd ∉ remember s.failed d.fd (some (init, 0, q)) → q.pos = some l ∧ q.npos = l.length) ∧
      (d.fd ∈ remember s.failed d.fd (some (init, 0, q)) → init = false ∧ d.pos ≠ 0 ∧ q.pos = none ∧ q.de = false) := by
  obtain ⟨i, p, L', hlock, hq, -⟩ := rdu_readdir_late h
  rcases hq with ⟨rfl, hres⟩ | ⟨rfl, -, rfl, hpos, -⟩
  · -- a new listing
    obtain ⟨hpos, hnpos, -⟩ := rdu_init_done hres
    refine ⟨e.init.listing, rfl, fun _ => ⟨hpos, hnpos⟩, ?_⟩
    intro hF
    simp [remember, mem_mark] at hF
  · -- the slot as it was
    obtain ⟨l, hl⟩ := Option.ne_none_iff_exists'.1 fun hnone => hpos ((hi.dirs d hd).fresh hnone).1
    refine ⟨l, hl, fun hF => ?_, fun hF => ?_⟩
    · obtain ⟨q, hq, hheld⟩ := (hi.dirs d hd).held hF l hl
      rw [(rdu_buf_lock_locked hlock).kept q hq]
      exact hheld
    · obtain ⟨x, hx, rfl⟩ := handed_of_lock hlock
      obtain ⟨hnone, hde⟩ := hi.handed_lost hd hF hx
      exact ⟨rfl, hpos, hnone, hde⟩

/-- a read keeps what the table has for its stream, and for the others -/
theorem Inv.readdir (hi : Inv s) (hd : d ∈ s.sys.dirs) {r : ReadRes}
    (h : rdu_readdir s.sys.lib d.fd d.pos d.de e = some r) :
    FreeSlots r.lib ∧ (∀ f, f ≠ d.fd → slotOf r.lib f = slotOf s.sys.lib f) ∧
      Kept r.lib (remember s.failed d.fd (prepare s.sys.lib d.fd d.pos d.de e))
        { d with pos := r.pos, listing := r.took.or d.listing } := by
  have hk := hi.dirs d hd
  cases hprep : prepare s.sys.lib d.fd d.pos d.de e with
  | none =>
    obtain ⟨err, L', hread, hslots⟩ := rdu_readdir_early hprep
    rw [hread] at h
    cases h
    have hslot : ∀ f, slotOf L' f = slotOf s.sys.lib f := fun f => by rw [slotOf, slotOf, hslots]
    refine ⟨fun p hp => hi.freed p (hslots ▸ hp), fun f _ => hslot f, ?_⟩
    exact hk.congr (hslot d.fd) Iff.rfl
  | some x =>
    obtain ⟨init, err, q⟩ := x
    obtain ⟨i, p, L', hlock, hq, hread⟩ := rdu_readdir_late hprep
    rw [hread] at h
    dsimp only at h
    have ho : s.sys.opened d.fd := ⟨d, hd, rfl⟩
    have htidy : Tidy { s.sys.lib with rdu := true } s.sys.opened :=
      ⟨hi.tidy.freed, hi.tidy.owned, hi.tidy.once, fun hf => by simp at hf⟩
    obtain ⟨ht, hat, hp⟩ := htidy.lock ho hlock
    have hlt := (List.getElem?_eq_some_iff.1 hat).1
    have hfree : FreeSlots L' := FreeSlots.lock (show FreeSlots { s.sys.lib with rdu := true } from hi.freed) hlock
    have hqfd : q.fd = d.fd := prepare_fd hprep
    obtain ⟨hself, hothers⟩ := (rdu_buf_lock_locked hlock).set hqfd
    have hset : FreeSlots { L' with slots := L'.slots.set i q } := hfree.set hqfd
    by_cases herr : err ≠ 0
    · -- rdu_init failed, and the slot is nobody's now
      rw [if_pos herr] at h
      cases h
      have hat' : (L'.slots.set i q)[i]? = some q := List.getElem?_set_self hlt
      have hgone : slotOf (rdu_free { L' with slots := L'.slots.set i q } i) d.fd = none :=
        slotOf_none ((ht.set ho hat hp hqfd).free hat' hqfd) fun hf => hf.2 rfl
      have hF : d.fd ∈ remember s.failed d.fd (some (init, err, q)) := by
        rcases hq with ⟨rfl, -⟩ | ⟨-, h0, -⟩
        · simp [remember, mem_mark, herr]
        · exact absurd h0 herr
      refine ⟨hset.free hat', ?_, hk.fresh, fun hF' => absurd hF hF', ?_⟩
      · intro f hf
        rw [slotOf_free hat' hqfd f hf]
        exact hothers f hf
      · intro _ p hp
        rw [hgone] at hp
        cases hp
    · obtain rfl : err = 0 := by simpa using herr
      obtain ⟨l, hl, hheld, hlost⟩ := hi.prepared hd hprep
      obtain ⟨hlib, htook⟩ : r.lib = { L' with slots := L'.slots.set i q } ∧ r.took = taken init e := by
        rw [if_neg herr] at h
        by_cases hde : (!d.de && !q.de) = true
        · rw [if_pos hde] at h
          cases h
          exact ⟨rfl, rfl⟩
        · rw [if_neg hde] at h
          obtain ⟨rde, -, rfl⟩ := Option.map_eq_some_iff.1 h
          exact ⟨rfl, rfl⟩
      rw [hlib, htook]
      exact ⟨hset, hothers, Kept.slot_of_listing hl hself hheld fun hF => (hlost hF).2.2⟩

theorem Kept.seek {L : Lib} {F : List ℕ} (h : Kept L F d) {pos : ℕ} (hpos : pos = 0 ∨ pos ∈ d.told) :
    Kept L F { d with pos := pos } :=
  ⟨fresh_seek h.fresh hpos, h.held, h.lost⟩

theorem FreeSlots.closedir {L L' : Lib} (hf : FreeSlots L) {opened : ℕ → Prop} (ht : Tidy L opened) {fd : ℕ}
    (ho : opened fd) {c : CloseEnv} (h : closedir L fd c = some L') : FreeSlots L' := by
  unfold Rdu.closedir at h
  by_cases hst : (!c.fstatfs) = true
  · rw [if_pos hst] at h
    cases h
  rw [if_neg hst] at h
  rcases hlock : rdu_buf_lock L fd c.new with ⟨_ | ⟨i, p⟩, M⟩
  · rw [hlock] at h
    obtain ⟨rfl, -⟩ := rdu_buf_lock_none hlock
    cases h
    exact hf
  · rw [hlock] at h
    cases h
    exact (hf.lock hlock).free (ht.lock ho hlock).2.1

/-- the reads of a call are by one function or the other -/
theorem Inv.by_fn (hi : Inv s) (r : Bool) : Inv (by_fn r s) := by
  have hfds : (Recycle.by_fn r s).sys.dirs.map Dir.fd = s.sys.dirs.map Dir.fd := by
    rw [Recycle.by_fn, List.map_map]
    rfl
  refine ⟨hfds ▸ hi.nodup, hi.tidy.mono ?_, hi.freed, ?_⟩
  · intro fd ⟨d, hd, hfd⟩
    exact ⟨_, List.mem_map_of_mem hd, hfd⟩
  · intro d hd
    obtain ⟨c, hc, rfl⟩ := List.mem_map.1 hd
    exact ⟨(hi.dirs c hc).fresh, (hi.dirs c hc).held, (hi.dirs c hc).lost⟩

/-- a call that changes one stream alone -/
theorem Inv.update_one (hi : Inv s) {L : Lib} {F : List ℕ} {f : Dir → Dir} (hd : d ∈ s.sys.dirs)
    (hf : ∀ d, (f d).fd = d.fd) (htidy : Tidy L (Sys.opened ⟨L, Rdu.update s.sys.dirs d.fd f⟩)) (hfreed : FreeSlots L)
    (hothers : ∀ g, g ≠ d.fd → slotOf L g = slotOf s.sys.lib g) (hF : ∀ g, g ≠ d.fd → (g ∈ F ↔ g ∈ s.failed))
    (hkept : Kept L F (f d)) : Inv ⟨⟨L, Rdu.update s.sys.dirs d.fd f⟩, F⟩ := by
  refine ⟨?_, htidy, hfreed, ?_⟩
  · rw [update_fds s.sys.dirs d.fd hf]
    exact hi.nodup
  · intro x hx
    obtain ⟨c, hc, ⟨hcfd, rfl⟩ | ⟨hcfd, rfl⟩⟩ := mem_update hx
    · obtain rfl := List.inj_on_of_nodup_map hi.nodup hc hd hcfd
      exact hkept
    · exact (hi.dirs x hc).congr (hothers x.fd hcfd) (hF x.fd hcfd)

/-- every call keeps it, whatever fails -/
theorem Inv.next {c : Call} (hi : Inv s) (h : next s c = some s') : Inv s' := by
  obtain ⟨t, ht, rfl⟩ := Option.map_eq_some_iff.1 h
  have htidy := hi.tidy.step hi.nodup ht
  cases step_cases ht with
  | @opened fd de hnew =>
    refine ⟨?_, htidy, hi.freed, ?_⟩
    · rw [List.map_cons, List.nodup_cons]
      refine ⟨fun hm => ?_, hi.nodup⟩
      obtain ⟨d, hd, hfd⟩ := List.mem_map.1 hm
      exact hnew d hd hfd
    · intro d hd
      rcases List.mem_cons.1 hd with rfl | hmem
      · refine ⟨fun _ => ⟨rfl, by simp⟩, by simp, ?_⟩
        intro hF
        simp [history, mem_mark] at hF
      · refine (hi.dirs d hmem).congr rfl ?_
        simp [history, mem_mark, hnew d hmem]
  | @done d e r hd hr =>
    obtain ⟨hfreed, hothers, hkept⟩ := hi.readdir hd hr
    have hF : history s (.read d.fd e) = remember s.failed d.fd (prepare s.sys.lib d.fd d.pos d.de e) := by
      rw [history, find?_of_mem hi.nodup hd, Option.bind_some]
    rw [hF]
    exact hi.update_one hd (fun _ => rfl) htidy hfreed hothers (fun g hg => mem_remember_ne hg _) hkept
  | told hd =>
    have hk := hi.dirs _ hd
    exact hi.update_one hd (fun _ => rfl) htidy hi.freed (fun _ _ => rfl) (fun _ _ => Iff.rfl)
      ⟨fresh_tell hk.fresh, hk.held, hk.lost⟩
  | sought hd hpos =>
    exact hi.update_one hd (fun _ => rfl) htidy hi.freed (fun _ _ => rfl) (fun _ _ => Iff.rfl)
      ((hi.dirs _ hd).seek hpos)
  | rewound hd =>
    exact hi.update_one hd (fun _ => rfl) htidy hi.freed (fun _ _ => rfl) (fun _ _ => Iff.rfl)
      ((hi.dirs _ hd).seek (Or.inl rfl))
  | left_open hd => exact hi
  | closed hd hL =>
    refine ⟨hi.nodup.sublist (List.eraseP_sublist.map Dir.fd), htidy, hi.freed.closedir hi.tidy ⟨_, hd, rfl⟩ hL, ?_⟩
    intro c hc
    obtain ⟨hc, hfd⟩ := (mem_eraseP_key hi.nodup).1 hc
    exact (hi.dirs c hc).congr (closedir_others hL c.fd hfd) Iff.rfl

end Steps

theorem inv_init : Inv Proc.init := by
  refine ⟨?_, tidy_init, ?_, ?_⟩
  · simp [Proc.init, Rdu.init]
  · simp [FreeSlots, Proc.init, Rdu.init]
  · simp [Proc.init, Rdu.init]

theorem inv_step {s s' : Proc} {a : Act} (hi : Inv s) (h : act s a = some s') : Inv s' :=
  (hi.by_fn a.r).next h

/-! ## What rdu_pos looks into -/

/-- a lost stream's read comes to rdu_pos, and there is no array -/
theorem Lost.not_live {s : Proc} (hi : Inv s) {d : Dir} {e : ReadEnv} (hd : d ∈ s.sys.dirs) (h : Lost s d e) :
    ∃ q, AtPos s.sys.lib d.fd d.pos d.de e q none ∧ d.pos < q.npos ∧ q.pos = none := by
  obtain ⟨x, hx, hlt⟩ := h.npos
  have hnone := (hi.handed_lost hd h.failed hx).1
  have hskip : ¬(d.pos = 0 ∨ x.npos = 0) := by
    have hpos := h.pos
    omega
  have hprep := prepare_handed h.fstatfs h.lib hx d.pos d.de
  rw [if_neg hskip] at hprep
  exact ⟨{ x with fd := (d.fd : ℤ) }, ⟨false, hprep, by simp [h.by_r], rfl⟩, hlt, hnone⟩

/-- a call finds the arrays it looks into exactly if it is not a lost stream's read -/
theorem live_iff {s : Proc} (hi : Inv s) (c : Call) : Live s c ↔ Guarded s c := by
  cases c with
  | read fd e =>
    constructor
    · intro hlive d hd hfd hlost
      obtain rfl := hfd
      obtain ⟨q, hat, hlt, hnone⟩ := hlost.not_live hi hd
      obtain ⟨l, hl, -⟩ := hlive d hd rfl q none hat hlt
      rw [hnone] at hl
      cases hl
    · intro hguard d hd hfd q took hat hlt
      obtain rfl := hfd
      obtain ⟨init, hprep, hbuf, rfl⟩ := hat
      obtain ⟨l, hl, hheld, hlost⟩ := hi.prepared hd hprep
      by_cases hF : d.fd ∈ remember s.failed d.fd (some (init, 0, q))
      · obtain ⟨rfl, hpos, -, hde⟩ := hlost hF
        obtain ⟨i, p, L', hlock, hq, -⟩ := rdu_readdir_late hprep
        obtain ⟨x, hx, rfl⟩ := handed_of_lock hlock
        obtain ⟨-, -, rfl, -⟩ := hq.resolve_left (by simp)
        obtain ⟨hst, hlib⟩ := prepare_started hprep
        have hxde : x.de = false := hde
        have hr : d.de = true := by simpa [hxde] using hbuf
        exact absurd ⟨hr, hpos, hF, hst, hlib, x, hx, hlt⟩ (hguard d hd rfl)
      · obtain ⟨hpos, hnpos⟩ := hheld hF
        exact ⟨l, hpos, hnpos.symm, hl⟩
  | _ => exact Iff.rfl

/-- **A slot that was given back is read by readdir_r alone.** In every run, with any call failing anywhere: whenever a
read comes to rdu_pos at a position before npos, pos[] is an array of npos entries, the listing that an rdu_init took
for this stream since it was opened, if and only if no readdir_r comes at a position other than 0, from a stream whose
last rdu_init failed, to a slot with more entries than that. -/
theorem array_live_iff (calls : List Act) :
    Along act (fun s a => Live (by_fn a.r s) a.call) Proc.init calls ↔
      Along act (fun s a => Guarded (by_fn a.r s) a.call) Proc.init calls :=
  along_iff act Inv _ _ (fun _ _ _ => inv_step) (fun _ a hi => live_iff (hi.by_fn a.r) a.call) inv_init calls

/-- a read whose AUFS_CTL_RDU_INO fails -/
def no_ino (ents : List RduEnt) : ReadEnv := { finds ents with init := { (finds ents).init with ino := none } }

/-- the first entry is read and its end told, the second listing fails, and the stream goes back to where it was told -/
def reread : List Act :=
  [⟨true, .opendir 3 true⟩, ⟨true, .read 3 (finds twoBranches.flatten)⟩, ⟨true, .telldir 3⟩, ⟨true, .rewinddir 3⟩,
    ⟨true, .read 3 (no_ino twoBranches.flatten)⟩, ⟨true, .seekdir 3 1⟩]

/-- the slot is free, with two entries to read and no pos[] -/
def rereadEnd : Proc :=
  ⟨⟨⟨true, [⟨-1, false, false, 2, none, false⟩], 8⟩,
    [⟨3, true, 1, [1], some (finds twoBranches.flatten).init.listing⟩]⟩, [3]⟩

theorem reread_ends : exec act Proc.init reread = some rereadEnd := by decide +kernel

/-- the read that comes next looks into an array that is not there, and crashes -/
theorem array_gone :
    ¬ Along act (fun s a => Live (by_fn a.r s) a.call) Proc.init (reread ++ [⟨true, .read 3 (finds [])⟩]) ∧
      act rereadEnd ⟨true, .read 3 (finds [])⟩ = none := by
  refine ⟨?_, by decide +kernel⟩
  intro h
  have hlive := along_last act reread_ends h
  obtain ⟨l, hl, -⟩ := hlive ⟨3, true, 1, [1], some (finds twoBranches.flatten).init.listing⟩
    (by simp [rereadEnd, by_fn]) rfl ⟨3, false, false, 2, none, false⟩ none ⟨false, by decide +kernel, rfl, rfl⟩ (by decide)
  cases hl

end AufsUtil.Rdu.Recycle
