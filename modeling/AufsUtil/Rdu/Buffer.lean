/-
The buffer that rdu_init hands to the kernel (`libau/rdu_lib.c`), over all runs on one slot of the array.

The slot keeps the buffer (p->ent) and its size (p->sz) from one call to the next; rdu_free and a call that failed give
the buffer back, but the size stays. Each turn of the loop hands out the window [param.ent, param.ent + param.sz); when
the kernel says that it is full, the buffer grows by the blk that the kernel asks for, may move, and the window becomes
what is behind the tail.

- `grow_window`: with 64-bit arithmetic that wraps, the growth computes the same window as `Window.grow` does with
  natural numbers.
- `step_inv`: every step keeps the invariant `Inv`, and none of them makes the kernel write outside of the buffer.
- `window_inside`: so, whenever rdu_getent is called, the buffer has exactly p->sz bytes, the window reaches from
  param.ent to its end, and in front of it stands what the full turns have filled, in order.

The kernel is an input: what it writes into its window, rent, full, any blk, and a tail inside of the window. So are
malloc(3) and realloc(3), which may fail; a block ends inside of the address space, and is smaller than 2^63 bytes. The
library is built with NDEBUG (`libau/Makefile`), here and in the other modules of it: `assert(param.blk)` is no code,
and with a blk of 0 the buffer is reallocated as long as it is. It is never of size 0.
-/
import Mathlib.Tactic
import AufsUtil.Lib.Block
import AufsUtil.Lib.Runs
import AufsUtil.Rdu.Collect

namespace AufsUtil.Rdu.Buffer

open AufsUtil.CStr AufsUtil.Block AufsUtil.Runs

/-! ## The slot -/

def BUFSIZ : ℕ := 8192

/-- a value of unsigned long long after a conversion -/
def u64 (v : ℤ) : ℕ := (v % 2 ^ 64).toNat

/-- a block, with its address -/
structure Mapped where
  addr : ℕ
  bytes : Bytes

/-- param.ent, param.sz and param.blk -/
structure Param where
  ent : ℕ
  sz : ℕ
  blk : ℕ

/-- where rdu_init is: not called, in front of the next rdu_getent, or behind the loop, with err = 0 or not; the kernel
was made to write outside of the buffer -/
inductive Phase where
  | idle
  | loop (param : Param)
  | behind (ok : Bool)
  | fault

/-- p->sz, p->npos and p->ent; `filled` is history: what the full turns of this call have written -/
structure Slot where
  sz : ℕ
  npos : ℕ
  ent : Option Mapped
  phase : Phase
  filled : Bytes

/-- rdu_new -/
def Slot.fresh : Slot := ⟨BUFSIZ, 0, none, .idle, []⟩

/-- a new block: its address, and the bytes that it happens to hold -/
abbrev Alloc := Option (ℕ × (ℕ → UInt8))

/-- what AUFS_CTL_RDU returns, and what it writes at param.ent; the answer of the realloc(3) that may follow -/
structure Answer where
  err : ℤ
  rent : ℕ
  full : Bool
  tail : ℕ
  blk : ℕ
  data : Bytes
  realloc : Alloc

inductive Event where
  /-- rdu_init up to the loop; blk is that of the environment -/
  | init (blk : ℕ) (malloc : Alloc)
  | getent (a : Answer)
  /-- rdu_init behind the loop: rdu_merge moves entries, and whether it and the rest succeed -/
  | finish (ok : Bool) (merged : Bytes)
  | free

/-- a block of n bytes may lie there -/
def Fits (n addr : ℕ) : Prop := 0 < addr ∧ addr + n < 2 ^ 64 ∧ n < 2 ^ 63

instance (n addr : ℕ) : Decidable (Fits n addr) := inferInstanceAs (Decidable (_ ∧ _ ∧ _))

def init (s : Slot) (blk : ℕ) (malloc : Alloc) : Option Slot :=
  match s.ent, malloc with
  | some b, _ => some { s with npos := 0, phase := .loop ⟨b.addr, s.sz, blk⟩, filled := [] }
  | none, none => some s
  | none, some (addr, junk) =>
    if Fits s.sz addr then
      some ⟨s.sz, 0, some ⟨addr, Block.malloc s.sz junk⟩, .loop ⟨addr, s.sz, blk⟩, []⟩
    else none

/-- the growth: the block has moved to e -/
def grow (s : Slot) (b : Mapped) (param : Param) (a : Answer) (e : ℕ) (junk : ℕ → UInt8) : Slot :=
  let used := u64 (a.tail - param.ent)
  let sz := u64 (param.sz + u64 (a.blk - used))
  let total := u64 (used + u64 (param.ent - b.addr))
  { s with
    sz := u64 (s.sz + a.blk)
    ent := some ⟨e, resize b.bytes (u64 (s.sz + a.blk)) junk⟩
    phase := .loop ⟨u64 (e + total), sz, a.blk⟩
    filled := s.filled ++ (b.bytes.drop (param.ent - b.addr)).take (a.tail - param.ent) }

/-- one turn of the loop, once the kernel has written; b is the buffer -/
def turn (s : Slot) (b : Mapped) (param : Param) (a : Answer) : Option Slot :=
  if a.err ≠ 0 ∨ a.rent = 0 then some { s with ent := some b, phase := .behind (a.err = 0) }
  else if !a.full then
    some { s with ent := some b, npos := s.npos + a.rent, phase := .loop { param with blk := a.blk } }
  else
    match a.realloc with
    | none => some { s with ent := some b, npos := s.npos + a.rent, phase := .behind false }
    | some (e, junk) =>
      if Fits (s.sz + a.blk) e then some (grow { s with npos := s.npos + a.rent } b param a e junk) else none

/-- rdu_getent: the kernel writes into the window, and its tail is inside of it -/
def getent (s : Slot) (param : Param) (a : Answer) : Option Slot :=
  if a.data.length ≤ param.sz ∧ (a.err = 0 → param.ent ≤ a.tail ∧ a.tail ≤ param.ent + param.sz) then
    match s.ent with
    | none => some { s with phase := .fault }
    | some b =>
      if param.ent < b.addr then some { s with phase := .fault }
      else
        match store b.bytes (param.ent - b.addr) a.data with
        | none => some { s with phase := .fault }
        | some bytes => turn s ⟨b.addr, bytes⟩ param a
  else none

def finish (s : Slot) (noerr ok : Bool) (merged : Bytes) : Option Slot :=
  match s.ent with
  | none => none
  | some b =>
    if noerr && ok then
      if merged.length = b.bytes.length then some { s with ent := some ⟨b.addr, merged⟩, phase := .idle } else none
    else some { s with ent := none, phase := .idle }

def rdu_free (s : Slot) : Slot := { s with ent := none }

def step (s : Slot) : Event → Option Slot
  | .init blk malloc => match s.phase with
    | .idle => init s blk malloc
    | _ => none
  | .getent a => match s.phase with
    | .loop param => getent s param a
    | _ => none
  | .finish ok merged => match s.phase with
    | .behind noerr => finish s noerr ok merged
    | _ => none
  | .free => match s.phase with
    | .idle => some (rdu_free s)
    | _ => none

/-! ## The growth -/

section Growth

variable {s : Slot} {b : Mapped} {param : Param} {a : Answer} {e : ℕ} {junk : ℕ → UInt8}
  (hb : Fits s.sz b.addr) (hstart : b.addr ≤ param.ent) (hsz : param.ent - b.addr + param.sz = s.sz)
  (htail : param.ent ≤ a.tail ∧ a.tail ≤ param.ent + param.sz) (he : Fits (s.sz + a.blk) e)

include hb hstart hsz htail he

/-- the arithmetic does not wrap in the end: what is subtracted is smaller than what was there -/
theorem grow_eq : grow s b param a e junk =
    { s with
      sz := s.sz + a.blk
      ent := some ⟨e, resize b.bytes (s.sz + a.blk) junk⟩
      phase := .loop ⟨e + (a.tail - b.addr), param.sz + a.blk - (a.tail - param.ent), a.blk⟩
      filled := s.filled ++ (b.bytes.drop (param.ent - b.addr)).take (a.tail - param.ent) } := by
  obtain ⟨-, hb64, -⟩ := hb
  obtain ⟨-, he64, he63⟩ := he
  have hsum : u64 (s.sz + a.blk) = s.sz + a.blk := by
    unfold u64
    omega
  have hused : u64 (a.tail - param.ent) = a.tail - param.ent := by
    unfold u64
    omega
  have hfront : u64 (param.ent - b.addr) = param.ent - b.addr := by
    unfold u64
    omega
  have htotal : u64 ((a.tail - param.ent : ℕ) + (param.ent - b.addr : ℕ)) = a.tail - b.addr := by
    unfold u64
    omega
  have hleft : u64 (param.sz + u64 (a.blk - (a.tail - param.ent : ℕ))) = param.sz + a.blk - (a.tail - param.ent) := by
    unfold u64
    omega
  have hent : u64 (e + (a.tail - b.addr : ℕ)) = e + (a.tail - b.addr) := by
    unfold u64
    omega
  simp only [grow, hsum, hused, hfront, htotal, hleft, hent]

/-- **The same window** as with natural numbers. -/
theorem grow_window {w : Window} (hw : w.ent = b.addr ∧ w.sz = s.sz ∧ w.param_ent = param.ent ∧ w.param_sz = param.sz)
    (m : Memory.Mem) : ∃ p, (grow s b param a e junk).phase = .loop p ∧ p.ent = (w.grow a.blk a.tail e m).param_ent ∧
      p.sz = (w.grow a.blk a.tail e m).param_sz ∧ (grow s b param a e junk).sz = (w.grow a.blk a.tail e m).sz := by
  obtain ⟨hent, hwsz, hparam, hpsz⟩ := hw
  rw [grow_eq hb hstart hsz htail he]
  refine ⟨_, rfl, ?_, ?_, ?_⟩
  · show e + (a.tail - b.addr) = e + (a.tail - w.param_ent + (w.param_ent - w.ent))
    omega
  · show param.sz + a.blk - (a.tail - param.ent) = w.param_sz + a.blk - (a.tail - w.param_ent)
    rw [hparam, hpsz]
  · show s.sz + a.blk = w.sz + a.blk
    rw [hwsz]

end Growth

/-! ## The invariant -/

/-- what holds in front of every rdu_getent: the window is the end of the buffer, and what the full turns have filled
stands in front of it -/
structure Covers (s : Slot) (param : Param) (b : Mapped) : Prop where
  start : b.addr ≤ param.ent
  sz : param.ent - b.addr + param.sz = s.sz
  filled : b.bytes.take (param.ent - b.addr) = s.filled

structure Inv (s : Slot) : Prop where
  size : s.sz < 2 ^ 63
  /-- the buffer has exactly p->sz bytes -/
  block : ∀ b ∈ s.ent, b.bytes.length = s.sz ∧ Fits s.sz b.addr
  window : ∀ param, s.phase = .loop param → ∃ b ∈ s.ent, Covers s param b
  inside : s.phase ≠ .fault

theorem inv_fresh : Inv .fresh :=
  ⟨by decide, by simp [Slot.fresh], fun param h => Phase.noConfusion h, Phase.noConfusion⟩

/-- a state outside of the loop -/
theorem Inv.leave {s t : Slot} (h : Inv s) (hsz : t.sz = s.sz)
    (hent : ∀ b ∈ t.ent, b.bytes.length = s.sz ∧ Fits s.sz b.addr) (hloop : ∀ param, t.phase ≠ .loop param)
    (hfault : t.phase ≠ .fault) : Inv t :=
  ⟨hsz ▸ h.size, hsz ▸ hent, fun param hp => absurd hp (hloop param), hfault⟩

theorem init_inv {s t : Slot} {blk : ℕ} {malloc : Alloc} (h : Inv s) (ht : init s blk malloc = some t) : Inv t := by
  unfold init at ht
  cases hent : s.ent with
  | some b =>
    rw [hent] at ht
    obtain rfl := Option.some.inj ht
    refine ⟨h.size, ?_, ?_, Phase.noConfusion⟩
    · intro c hc
      exact h.block c (hent.trans hc)
    · intro param hp
      obtain rfl := Phase.loop.inj hp
      exact ⟨b, rfl, le_rfl, by simp, by simp⟩
  | none =>
    rw [hent] at ht
    cases malloc with
    | none =>
      obtain rfl := Option.some.inj ht
      exact h
    | some m =>
      obtain ⟨addr, junk⟩ := m
      dsimp only at ht
      split_ifs at ht with hfits
      obtain rfl := Option.some.inj ht
      refine ⟨h.size, ?_, ?_, Phase.noConfusion⟩
      · rintro b hb
        obtain rfl := Option.some.inj hb
        exact ⟨length_malloc s.sz junk, hfits⟩
      · intro param hp
        obtain rfl := Phase.loop.inj hp
        exact ⟨_, rfl, le_rfl, by simp, by simp⟩

/-- a turn, once the kernel has written into the window of the buffer b -/
theorem turn_inv {s t : Slot} {b : Mapped} {param : Param} {a : Answer} (h : Inv s)
    (hb : b.bytes.length = s.sz ∧ Fits s.sz b.addr) (hc : Covers s param b)
    (htail : a.err = 0 → param.ent ≤ a.tail ∧ a.tail ≤ param.ent + param.sz) (ht : turn s b param a = some t) :
    Inv t := by
  have hblock : ∀ c ∈ some b, c.bytes.length = s.sz ∧ Fits s.sz c.addr := fun c hc => Option.some.inj hc ▸ hb
  unfold turn at ht
  split_ifs at ht with hend hfull
  · obtain rfl := Option.some.inj ht
    exact h.leave rfl hblock (fun _ => Phase.noConfusion) Phase.noConfusion
  · obtain rfl := Option.some.inj ht
    refine ⟨h.size, hblock, ?_, Phase.noConfusion⟩
    intro param' hp
    obtain rfl := Phase.loop.inj hp
    exact ⟨b, rfl, hc.start, hc.sz, hc.filled⟩
  · cases hre : a.realloc with
    | none =>
      rw [hre] at ht
      obtain rfl := Option.some.inj ht
      exact h.leave rfl hblock (fun _ => Phase.noConfusion) Phase.noConfusion
    | some m =>
      obtain ⟨e, junk⟩ := m
      rw [hre] at ht
      dsimp only at ht
      split_ifs at ht with hfits
      obtain rfl := Option.some.inj ht
      have herr : a.err = 0 := by
        by_contra herr
        exact hend (Or.inl herr)
      obtain ⟨hlow, hhigh⟩ := htail herr
      have hstart := hc.start
      have hsz := hc.sz
      rw [grow_eq (s := { s with npos := s.npos + a.rent }) hb.2 hstart hsz ⟨hlow, hhigh⟩ hfits]
      refine ⟨hfits.2.2, ?_, ?_, Phase.noConfusion⟩
      · rintro c hc
        obtain rfl := Option.some.inj hc
        exact ⟨length_resize _ _ _, hfits⟩
      · intro param' hp
        obtain rfl := Phase.loop.inj hp
        refine ⟨_, rfl, Nat.le_add_right e _, ?_, ?_⟩
        · show e + (a.tail - b.addr) - e + (param.sz + a.blk - (a.tail - param.ent)) = s.sz + a.blk
          omega
        · -- what the turn has filled is behind what was filled before
          show (resize b.bytes (s.sz + a.blk) junk).take (e + (a.tail - b.addr) - e) =
            s.filled ++ (b.bytes.drop (param.ent - b.addr)).take (a.tail - param.ent)
          have hsplit : a.tail - b.addr = (param.ent - b.addr) + (a.tail - param.ent) := by omega
          rw [Nat.add_sub_cancel_left, take_resize junk (by rw [hb.1]; omega) (by omega), hsplit, List.take_add,
            hc.filled]

/-- a store in the window leaves what is in front of it -/
theorem store_front {b b' data : Bytes} {i : ℕ} (h : store b i data = some b') : b'.take i = b.take i := by
  rw [store] at h
  split_ifs at h with hle
  rw [← Option.some.inj h, List.append_assoc, List.take_append_of_le_length (by rw [List.length_take]; omega),
    List.take_take, Nat.min_self]

theorem getent_inv {s t : Slot} {param : Param} {a : Answer} (h : Inv s) (hphase : s.phase = .loop param)
    (ht : getent s param a = some t) : Inv t := by
  obtain ⟨b, hb, hc⟩ := h.window param hphase
  obtain ⟨hlen, hfits⟩ := h.block b hb
  have hstart := hc.start
  have hsz := hc.sz
  unfold getent at ht
  split_ifs at ht with hvalid
  rw [Option.mem_def.1 hb] at ht
  dsimp only at ht
  rw [if_neg (not_lt.2 hstart)] at ht
  obtain ⟨bytes, hstore⟩ := Option.isSome_iff_exists.1
    (store_isSome.2 (show param.ent - b.addr + a.data.length ≤ b.bytes.length by omega))
  rw [hstore] at ht
  dsimp only at ht
  have hlen' : bytes.length = s.sz := (store_inside hstore).trans hlen
  have hc' : Covers s param ⟨b.addr, bytes⟩ := ⟨hstart, hsz, (store_front hstore).trans hc.filled⟩
  exact turn_inv (b := ⟨b.addr, bytes⟩) h ⟨hlen', hfits⟩ hc' hvalid.2 ht

theorem finish_inv {s t : Slot} {noerr ok : Bool} {merged : Bytes} (h : Inv s)
    (ht : finish s noerr ok merged = some t) : Inv t := by
  unfold finish at ht
  cases hent : s.ent with
  | none =>
    rw [hent] at ht
    cases ht
  | some b =>
    obtain ⟨hlen, hfits⟩ := h.block b hent
    rw [hent] at ht
    dsimp only at ht
    split_ifs at ht with hok hmerged
    · obtain rfl := Option.some.inj ht
      refine h.leave rfl ?_ (fun _ => Phase.noConfusion) Phase.noConfusion
      rintro c hc
      obtain rfl := Option.some.inj hc
      exact ⟨hmerged.trans hlen, hfits⟩
    · obtain rfl := Option.some.inj ht
      exact h.leave rfl (by simp) (fun _ => Phase.noConfusion) Phase.noConfusion

/-- **Every step keeps the invariant.** -/
theorem step_inv (s : Slot) (ev : Event) (t : Slot) (h : Inv s) (ht : step s ev = some t) : Inv t := by
  cases ev with
  | init blk malloc =>
    simp only [step] at ht
    split at ht
    · exact init_inv h ht
    · cases ht
  | getent a =>
    simp only [step] at ht
    split at ht
    · rename_i hphase
      exact getent_inv h hphase ht
    · cases ht
  | finish ok merged =>
    simp only [step] at ht
    split at ht
    · exact finish_inv h ht
    · cases ht
  | free =>
    simp only [step] at ht
    split at ht
    · rename_i hphase
      obtain rfl := Option.some.inj ht
      refine h.leave rfl (by simp [rdu_free]) (fun param hp => ?_) fun hp => ?_
      · rw [rdu_free, hphase] at hp
        cases hp
      · rw [rdu_free, hphase] at hp
        cases hp
    · cases ht

/-- **The window is inside of the buffer.** After any run on a slot, when rdu_getent is called: the buffer has p->sz
bytes, the window is its end, and in front of it stands what the full turns of this call have filled. And the kernel has
never been made to write outside of the buffer. -/
theorem window_inside (evs : List Event) (s : Slot) (h : exec step .fresh evs = some s) :
    (∀ param, s.phase = .loop param → ∃ b, s.ent = some b ∧ b.bytes.length = s.sz ∧ b.addr ≤ param.ent ∧
      param.ent - b.addr + param.sz = s.sz ∧ b.bytes.take (param.ent - b.addr) = s.filled) ∧ s.phase ≠ .fault := by
  have hinv := exec_invariant step Inv step_inv inv_fresh h
  refine ⟨?_, hinv.inside⟩
  intro param hphase
  obtain ⟨b, hb, hc⟩ := hinv.window param hphase
  exact ⟨b, hb, (hinv.block b hb).1, hc.start, hc.sz, hc.filled⟩

/-- a full turn: two bytes are written, and the block moves from 4096 to 65536 -/
def fullTurn : Answer := ⟨0, 1, true, 4098, 512, [7, 9], some (65536, fun _ => 0)⟩

/-- in front of it -/
def started : Slot := ⟨8192, 0, some ⟨4096, Block.malloc 8192 fun _ => 0⟩, .loop ⟨4096, 8192, 0⟩, []⟩

/-- and behind it -/
def grown : Slot :=
  grow { started with npos := 1 } ⟨4096, [7, 9] ++ (Block.malloc 8192 fun _ => 0).drop 2⟩ ⟨4096, 8192, 0⟩ fullTurn 65536
    fun _ => 0

theorem started_step : step started (.getent fullTurn) = some grown := by
  have hstore : store (Block.malloc 8192 fun _ => 0) 0 [7, 9] =
      some ([7, 9] ++ (Block.malloc 8192 fun _ => 0).drop 2) := by
    rw [store, if_pos (by rw [length_malloc]; decide)]
    rfl
  show getent started ⟨4096, 8192, 0⟩ fullTurn = some grown
  unfold getent
  rw [if_pos (by decide)]
  dsimp only [started]
  rw [if_neg (by decide), show (4096 - 4096 : ℕ) = 0 from rfl, show fullTurn.data = [7, 9] from rfl, hstore]
  rfl

theorem window_inside_grown : ∃ (s : Slot) (b : Mapped),
    exec step .fresh [.init 0 (some (4096, fun _ => 0)), .getent fullTurn] = some s ∧
      s.phase = .loop ⟨65538, 8702, 512⟩ ∧ s.ent = some b ∧ b.bytes.length = 8704 ∧ b.addr ≤ 65538 ∧
      65538 - b.addr + 8702 = 8704 ∧ b.bytes.take (65538 - b.addr) = [7, 9] := by
  have hinit : step .fresh (.init 0 (some (4096, fun _ => 0))) = some started := rfl
  have hrun : exec step .fresh [.init 0 (some (4096, fun _ => 0)), .getent fullTurn] = some grown :=
    (exec_cons step).2 ⟨_, hinit, (exec_cons step).2 ⟨_, started_step, rfl⟩⟩
  have hphase : grown.phase = .loop ⟨65538, 8702, 512⟩ := rfl
  obtain ⟨b, hb, hlen, hstart, hsz, hfilled⟩ := (window_inside _ _ hrun).1 _ hphase
  exact ⟨grown, b, hrun, hphase, hb, hlen, hstart, hsz, hfilled⟩

end AufsUtil.Rdu.Buffer
