/-
Reading one stream by readdir and readdir_r in turns (`libau/rdu.c`).

Both end in rdu_readdir; readdir hands it no buffer and gets the dirent of the slot, which rdu_init allocates only if
the call that makes it wants one. `mixed` is a sequence of reads of one stream, each by the function of its choice.

- `tidy_run`: in every state that calls without failure lead to, a slot with a descriptor belongs to an open stream, and
  a free slot has no dirent. So a stream that was just opened starts without one.
- `mixed_reads_iff`: with no failing call, all reads give what readdir_r alone gives, without an error, if and only if a
  readdir is among the calls up to the one that took the listing, or none comes after it. A readdir after a listing that
  readdir_r took finds no dirent, returns EINVAL and does not move.
-/
import Mathlib.Tactic
import AufsUtil.Rdu.Readdir

namespace AufsUtil.Rdu

open AufsUtil.CStr AufsUtil.Runs AufsUtil.Keyed

/-! ## Slots of open streams -/

/-- a free slot has no dirent; a slot with a descriptor is that of an open stream, and the only one; there is none
before the table is allocated -/
structure Tidy (L : Lib) (opened : ℕ → Prop) : Prop where
  freed : ∀ p ∈ L.slots, p.fd = -1 → p.de = false
  owned : ∀ p ∈ L.slots, p.fd = -1 ∨ ∃ f : ℕ, opened f ∧ p.fd = f
  once : ∀ (i j : ℕ) (p q : Slot), L.slots[i]? = some p → L.slots[j]? = some q → p.fd = q.fd → p.fd ≠ -1 → i = j
  unused : L.rdu = false → L.slots = []

section Slots

variable {L L' : Lib} {fd i : ℕ} {p : Slot} {opened : ℕ → Prop}

/-- the slot that rdu_buf_lock returns: that of fd, a free one, or a new one -/
theorem rdu_buf_lock_slots {e : NewEnv} (h : rdu_buf_lock L fd e = (some (i, p), L')) :
    (L'.slots = L.slots ∧ L.slots[i]? = some p ∧ p.fd = fd) ∨
      (∃ q, (∀ r ∈ L.slots, r.fd ≠ fd) ∧ L.slots[i]? = some q ∧ q.fd = -1 ∧ p = { q with fd := fd } ∧
        L'.slots = L.slots.set i p) ∨
      ((∀ r ∈ L.slots, r.fd ≠ fd) ∧ i = L.slots.length ∧ p.fd = fd ∧ p.de = false ∧ L'.slots = L.slots ++ [p]) := by
  have hno : slotOf L fd = none → ∀ r ∈ L.slots, r.fd ≠ fd := by
    intro hown r hr
    simpa using List.find?_eq_none.1 hown r hr
  have hcases := rdu_buf_lock_cases L fd e
  rw [h] at hcases
  cases hcases with
  | own hrdu hidx hi => exact Or.inl ⟨rfl, hi, (locked_found hidx hi).fd_eq⟩
  | @free i q hrdu hown hfree hi =>
    have hq := List.find?_some hfree
    exact Or.inr (Or.inl ⟨q, hno hown, hi, by simpa using hq, rfl, rfl⟩)
  | fresh hrdu hown hfree hroom => exact Or.inr (Or.inr ⟨hno hown, rfl, rfl, rfl, rfl⟩)

theorem rdu_buf_lock_rdu {e : NewEnv} (h : rdu_buf_lock L fd e = (some (i, p), L')) : L'.rdu = true := by
  have hcases := rdu_buf_lock_cases L fd e
  rw [h] at hcases
  cases hcases with
  | own hrdu hidx hi => exact hrdu
  | free hrdu hown hfree hi => exact hrdu
  | fresh hrdu hown hfree hroom => exact hrdu

/-- without a slot for fd the table is not there, or has none for it -/
theorem rdu_buf_lock_none {e : NewEnv} (h : rdu_buf_lock L fd e = (none, L')) :
    L' = L ∧ (L.rdu = true → ∀ p ∈ L.slots, p.fd ≠ fd) := by
  have hcases := rdu_buf_lock_cases L fd e
  rw [h] at hcases
  cases hcases with
  | no_table hno =>
    refine ⟨rfl, fun hrdu => ?_⟩
    rw [hno] at hrdu
    cases hrdu
  | oom hrdu hown hfree hoom =>
    refine ⟨rfl, fun _ p hp => ?_⟩
    simpa using List.find?_eq_none.1 hown p hp

/-- one slot is overwritten or added: it is free now, or it is the one of an open stream -/
theorem Tidy.change (ht : Tidy L opened) (fd : ℕ) (x : Slot)
    (hunused : L'.rdu = false → L'.slots = [])
    (hslots : ∀ (j : ℕ) (r : Slot), L'.slots[j]? = some r → (L.slots[j]? = some r ∧ j ≠ i) ∨ (j = i ∧ r = x))
    (hx : (x.fd = -1 ∧ x.de = false) ∨
      (opened fd ∧ x.fd = fd ∧ ∀ (j : ℕ) (r : Slot), L.slots[j]? = some r → r.fd = fd → j = i)) : Tidy L' opened := by
  -- a slot that was there before does not have the descriptor of x
  have hother : ∀ (j : ℕ) (r : Slot), L.slots[j]? = some r → j ≠ i → r.fd = x.fd → r.fd = -1 := by
    intro j r hr hj heq
    rcases hx with ⟨hfree, -⟩ | ⟨-, hfd, hone⟩
    · exact heq.trans hfree
    · exact absurd (hone j r hr (heq.trans hfd)) hj
  refine ⟨?_, ?_, ?_, hunused⟩
  · intro r hr hfree
    obtain ⟨j, hj⟩ := List.mem_iff_getElem?.1 hr
    rcases hslots j r hj with ⟨hold, -⟩ | ⟨-, rfl⟩
    · exact ht.freed r (List.mem_of_getElem? hold) hfree
    · rcases hx with ⟨-, hde⟩ | ⟨-, hfd, -⟩
      · exact hde
      · exact absurd (hfree.symm.trans hfd) (neg_one_ne fd)
  · intro r hr
    obtain ⟨j, hj⟩ := List.mem_iff_getElem?.1 hr
    rcases hslots j r hj with ⟨hold, -⟩ | ⟨-, rfl⟩
    · exact ht.owned r (List.mem_of_getElem? hold)
    · rcases hx with ⟨hfree, -⟩ | ⟨ho, hfd, -⟩
      · exact Or.inl hfree
      · exact Or.inr ⟨fd, ho, hfd⟩
  · intro j k r q hr hq heq hne
    rcases hslots j r hr with ⟨hr', hj⟩ | ⟨rfl, rfl⟩
    · rcases hslots k q hq with ⟨hq', -⟩ | ⟨-, rfl⟩
      · exact ht.once j k r q hr' hq' heq hne
      · exact absurd (hother j r hr' hj heq) hne
    · rcases hslots k q hq with ⟨hq', hk⟩ | ⟨rfl, -⟩
      · exact absurd (heq.trans (hother k q hq' hk heq.symm)) hne
      · rfl

theorem getElem?_set_cases {l : List Slot} {j : ℕ} {x r : Slot} (h : (l.set i x)[j]? = some r) :
    (l[j]? = some r ∧ j ≠ i) ∨ (j = i ∧ r = x) := by
  by_cases hj : i = j
  · subst hj
    obtain ⟨hlt, -⟩ := List.getElem?_eq_some_iff.1 h
    rw [List.length_set] at hlt
    rw [List.getElem?_set_self hlt, Option.some.injEq] at h
    exact Or.inr ⟨rfl, h.symm⟩
  · rw [List.getElem?_set_ne hj] at h
    exact Or.inl ⟨h, Ne.symm hj⟩

theorem getElem?_concat_cases {l : List Slot} {j : ℕ} {x r : Slot} (h : (l ++ [x])[j]? = some r) :
    (l[j]? = some r ∧ j ≠ l.length) ∨ (j = l.length ∧ r = x) := by
  rcases lt_or_ge j l.length with hlt | hge
  · rw [List.getElem?_append_left hlt] at h
    exact Or.inl ⟨h, hlt.ne⟩
  · rw [List.getElem?_append_right hge, List.getElem?_singleton] at h
    split_ifs at h with h0
    exact Or.inr ⟨by omega, (Option.some.inj h).symm⟩

theorem Tidy.lock {e : NewEnv} (ht : Tidy L opened) (ho : opened fd) (h : rdu_buf_lock L fd e = (some (i, p), L')) :
    Tidy L' opened ∧ L'.slots[i]? = some p ∧ p.fd = fd := by
  have hunused : L'.rdu = false → L'.slots = [] := fun hf => by simp [rdu_buf_lock_rdu h] at hf
  rcases rdu_buf_lock_slots h with ⟨hs, hi, hp⟩ | ⟨q, hno, hi, hq, rfl, hs⟩ | ⟨hno, rfl, hp, hde, hs⟩
  · exact ⟨⟨hs ▸ ht.freed, hs ▸ ht.owned, hs ▸ ht.once, hunused⟩, hs ▸ hi, hp⟩
  · have hlt := (List.getElem?_eq_some_iff.1 hi).1
    have hnone : ∀ (j : ℕ) (r : Slot), L.slots[j]? = some r → r.fd = fd → j = i := fun j r hr hfd =>
      absurd hfd (hno r (List.mem_of_getElem? hr))
    refine ⟨ht.change fd { q with fd := fd } hunused ?_ (Or.inr ⟨ho, rfl, hnone⟩),
      by rw [hs, List.getElem?_set_self hlt], rfl⟩
    intro j r hr
    rw [hs] at hr
    exact getElem?_set_cases hr
  · have hnone : ∀ (j : ℕ) (r : Slot), L.slots[j]? = some r → r.fd = fd → j = L.slots.length := fun j r hr hfd =>
      absurd hfd (hno r (List.mem_of_getElem? hr))
    refine ⟨ht.change fd p hunused ?_ (Or.inr ⟨ho, hp, hnone⟩), by rw [hs]; simp, hp⟩
    intro j r hr
    rw [hs] at hr
    exact getElem?_concat_cases hr

/-- the slot of a descriptor is the only one -/
theorem Tidy.slot_of (ht : Tidy L opened) (hi : L.slots[i]? = some p) (hp : p.fd = fd) {j : ℕ} {r : Slot}
    (hr : L.slots[j]? = some r) (hfd : r.fd = fd) : j = i := by
  refine ht.once j i r p hr hi (hfd.trans hp.symm) ?_
  rw [hfd]
  exact (neg_one_ne fd).symm

/-- what the holder of a slot writes into it -/
theorem Tidy.set (ht : Tidy L opened) (ho : opened fd) (hi : L.slots[i]? = some p) (hp : p.fd = fd) {q : Slot}
    (hq : q.fd = fd) : Tidy { L with slots := L.slots.set i q } opened := by
  refine ht.change fd q ?_ (fun j r hr => getElem?_set_cases hr) (Or.inr ⟨ho, hq, fun j r hr => ht.slot_of hi hp hr⟩)
  intro hf
  simp [ht.unused hf]

/-- a freed slot is nobody's -/
theorem Tidy.free (ht : Tidy L opened) (hi : L.slots[i]? = some p) (hp : p.fd = fd) :
    Tidy (rdu_free L i) fun f => opened f ∧ f ≠ fd := by
  have hcases : ∀ (j : ℕ) (r : Slot), (rdu_free L i).slots[j]? = some r → (L.slots[j]? = some r ∧ j ≠ i) ∨
      (j = i ∧ r = { p with fd := -1, de := false, pos := none, ent := false }) := by
    intro j r hr
    rw [rdu_free_slots hi] at hr
    exact getElem?_set_cases hr
  have hfree : Tidy (rdu_free L i) opened := by
    refine ht.change fd _ ?_ hcases (Or.inl ⟨rfl, rfl⟩)
    intro hf
    simp [rdu_free, ht.unused hf]
  refine ⟨hfree.freed, ?_, hfree.once, hfree.unused⟩
  intro r hr
  rcases hfree.owned r hr with hr' | ⟨f, hf, hrf⟩
  · exact Or.inl hr'
  refine Or.inr ⟨f, ⟨hf, ?_⟩, hrf⟩
  rintro rfl
  obtain ⟨j, hj⟩ := List.mem_iff_getElem?.1 hr
  rcases hcases j r hj with ⟨hold, hne⟩ | ⟨-, rfl⟩
  · exact hne (ht.slot_of hi hp hold hrf)
  · exact neg_one_ne f hrf

theorem Tidy.mono (ht : Tidy L opened) {opened' : ℕ → Prop} (h : ∀ f, opened f → opened' f) : Tidy L opened' := by
  refine ⟨ht.freed, ?_, ht.once, ht.unused⟩
  intro p hp
  rcases ht.owned p hp with hfree | ⟨f, hf, hpf⟩
  · exact Or.inl hfree
  · exact Or.inr ⟨f, h f hf, hpf⟩

end Slots

/-! ## Every run -/

/-- the descriptors of the open streams -/
def Sys.opened (s : Sys) (fd : ℕ) : Prop := ∃ d ∈ s.dirs, d.fd = fd

/-- a call that changes one stream leaves the descriptors -/
theorem Tidy.update {L M N : Lib} {dirs : List Dir} {fd : ℕ} {f : Dir → Dir} (ht : Tidy L (Sys.opened ⟨M, dirs⟩))
    (hf : ∀ d, (f d).fd = d.fd) : Tidy L (Sys.opened ⟨N, Rdu.update dirs fd f⟩) := by
  refine ht.mono ?_
  intro g hg
  have hmem : g ∈ (Rdu.update dirs fd f).map Dir.fd := by
    rw [update_fds dirs fd hf]
    simpa [Sys.opened] using hg
  simpa [Sys.opened] using hmem

/-- a read of an open stream leaves the table tidy, whatever fails -/
theorem Tidy.readdir {L : Lib} {opened : ℕ → Prop} {fd pos : ℕ} {de : Bool} {e : ReadEnv} {r : ReadRes}
    (ht : Tidy L opened) (ho : opened fd) (h : rdu_readdir L fd pos de e = some r) : Tidy r.lib opened := by
  have hrdu : Tidy { L with rdu := true } opened := ⟨ht.freed, ht.owned, ht.once, fun hf => by simp at hf⟩
  -- the locked slot with something else for the descriptor in it
  have hset : ∀ {i : ℕ} {p q : Slot} {L' : Lib}, rdu_buf_lock { L with rdu := true } fd e.new = (some (i, p), L') →
      q.fd = p.fd → Tidy { L' with slots := L'.slots.set i q } opened := by
    intro i p q L' hlock hq
    obtain ⟨ht', hi, hp⟩ := hrdu.lock ho hlock
    exact ht'.set ho hi hp (hq.trans hp)
  have hcases := rdu_readdir_cases L fd pos de e
  rw [h] at hcases
  generalize ho' : some r = o at hcases
  cases hcases with
  | not_started hs herr =>
    cases ho'
    exact ht
  | no_slot hs hlock =>
    cases ho'
    exact hrdu
  | @init_failed i p q L' err hs hlock hinit hres herr =>
    cases ho'
    have hfd : q.fd = p.fd := by
      have hfd := rdu_init_fd p (!de) e.init
      rwa [hres] at hfd
    obtain ⟨-, hi, hp⟩ := hrdu.lock ho hlock
    have hlt := (List.getElem?_eq_some_iff.1 hi).1
    exact ((hset hlock hfd).free (List.getElem?_set_self hlt) (hfd.trans hp)).mono fun _ hf => hf.1
  | no_dirent hs hlock hq hde =>
    cases ho'
    exact hset hlock hq.fd
  | answered hs hlock hq hde =>
    obtain ⟨rde, -, rfl⟩ := Option.map_eq_some_iff.1 ho'.symm
    exact hset hlock hq.fd

/-- nor does closedir leave a slot with the descriptor -/
theorem Tidy.closedir {L L' : Lib} {opened : ℕ → Prop} {fd : ℕ} {e : CloseEnv} (ht : Tidy L opened) (ho : opened fd)
    (h : closedir L fd e = some L') : Tidy L' fun f => opened f ∧ f ≠ fd := by
  unfold Rdu.closedir at h
  by_cases hst : (!e.fstatfs) = true
  · rw [if_pos hst] at h
    cases h
  rw [if_neg hst] at h
  rcases hlock : rdu_buf_lock L fd e.new with ⟨o, M⟩
  rw [hlock] at h
  rcases o with _ | ⟨i, p⟩
  · -- nothing was freed, as there was nothing to free
    cases h
    obtain ⟨rfl, hnone⟩ := rdu_buf_lock_none hlock
    refine ⟨ht.freed, ?_, ht.once, ht.unused⟩
    intro p hp
    rcases ht.owned p hp with hfree | ⟨f, hf, hpf⟩
    · exact Or.inl hfree
    refine Or.inr ⟨f, ⟨hf, ?_⟩, hpf⟩
    rintro rfl
    cases hrdu : L'.rdu with
    | false =>
      rw [ht.unused hrdu] at hp
      cases hp
    | true => exact hnone hrdu p hp hpf
  · obtain ⟨ht', hi, hp⟩ := ht.lock ho hlock
    cases h
    exact ht'.free hi hp

theorem tidy_init : Tidy init.lib init.opened := by
  refine ⟨?_, ?_, ?_, fun _ => rfl⟩ <;> simp [init]

/-- every call keeps the table tidy, whatever fails -/
theorem Tidy.step {s s' : Sys} {c : Call} (hnodup : (s.dirs.map Dir.fd).Nodup) (ht : Tidy s.lib s.opened)
    (h : step s c = some s') : Tidy s'.lib s'.opened := by
  cases step_cases h with
  | opened hnew => exact ht.mono fun f ⟨d, hd, hf⟩ => ⟨d, List.mem_cons_of_mem _ hd, hf⟩
  | done hd hr => exact (ht.readdir ⟨_, hd, rfl⟩ hr).update fun _ => rfl
  | told hd => exact ht.update fun _ => rfl
  | sought hd hpos => exact ht.update fun _ => rfl
  | rewound hd => exact ht.update fun _ => rfl
  | left_open hd => exact ht
  | closed hd hL =>
    refine (ht.closedir ⟨_, hd, rfl⟩ hL).mono ?_
    intro f ⟨⟨c, hcm, hcf⟩, hne⟩
    exact ⟨c, (mem_eraseP_key hnodup).2 ⟨hcm, hcf ▸ hne⟩, hcf⟩

theorem tidy_run {calls : List Call} {s : Sys} (hok : ∀ c ∈ calls, c.Ok) (h : exec step init calls = some s) :
    Tidy s.lib s.opened :=
  (exec_invariant_of step Call.Ok (fun s => Inv s ∧ Tidy s.lib s.opened)
    (fun _ _ _ hc hi hstep => ⟨inv_step hc hi.1 hstep, hi.2.step hi.1.nodup hstep⟩) hok ⟨inv_init, tidy_init⟩ h).2

/-! ## Reads by either function -/

/-- one read: whether by readdir_r, and how its system calls turn out -/
structure Read where
  r : Bool
  env : ReadEnv

/-- reads of the stream fd from position pos on; what each of them returns -/
def mixed (fd : ℕ) : Lib → ℕ → List Read → Option (List (ℤ × Option Dirent))
  | _, _, [] => some []
  | L, pos, c :: cs =>
    (rdu_readdir L fd pos c.r c.env).bind fun r => (mixed fd r.lib r.pos cs).map ((r.err, r.rde) :: ·)

/-- the same read by readdir_r -/
def Read.by_r (c : Read) : Read := { c with r := true }

/-- the reads give what they give by readdir_r, and no error -/
def Interchangeable (L : Lib) (fd : ℕ) (cs : List Read) : Prop :=
  ∃ rs, mixed fd L 0 cs = some rs ∧ mixed fd L 0 (cs.map Read.by_r) = some rs ∧ ∀ x ∈ rs, x.1 = 0

/-- a read at pos finds a slot with the listing l, a new one being taken if l is empty, and with a dirent if de -/
def Awaits (L : Lib) (fd pos : ℕ) (l : List RduEnt) (de : Bool) : Prop :=
  ∀ (e : NewEnv) (i : ℕ) (p : Slot) (L' : Lib), rdu_buf_lock { L with rdu := true } fd e = (some (i, p), L') →
    p.de = de ∧ ((pos = 0 ∨ p.npos = 0) ↔ l = []) ∧ (l ≠ [] → p.pos = some l ∧ p.npos = l.length)

/-- a stream that was just opened -/
theorem awaits_fresh {L : Lib} {opened : ℕ → Prop} {fd : ℕ} (ht : Tidy L opened) (hfd : ¬ opened fd) :
    Awaits L fd 0 [] false := by
  intro e i p L' hlock
  refine ⟨?_, by simp, fun h => absurd rfl h⟩
  rcases rdu_buf_lock_slots hlock with ⟨-, hi, hp⟩ | ⟨q, -, hi, hq, rfl, -⟩ | ⟨-, -, -, hde, -⟩
  · rcases ht.owned p (List.mem_of_getElem? hi) with hfree | ⟨f, hf, hpf⟩
    · exact absurd (hfree.symm.trans hp) (neg_one_ne fd)
    · exact absurd (Nat.cast_injective (hp.symm.trans hpf) ▸ hf) hfd
  · exact ht.freed q (List.mem_of_getElem? hi) hq
  · exact hde

theorem awaits_slot {L : Lib} {fd pos : ℕ} {q : Slot} {l : List RduEnt} (hq : slotOf L fd = some q)
    (hpos : q.pos = some l) (hnpos : q.npos = l.length) : Awaits L fd (pos + 1) l q.de := by
  intro e i p L' hlock
  obtain rfl := (rdu_buf_lock_locked hlock).kept q hq
  exact ⟨rfl, by rw [hnpos, List.length_eq_zero_iff]; simp, fun _ => ⟨hpos, hnpos⟩⟩

/-- the listing and the dirent after a read -/
def listing_after (l : List RduEnt) (c : Read) : List RduEnt := if l = [] then c.env.init.listing else l

def de_after (l : List RduEnt) (de : Bool) (c : Read) : Bool := if l = [] then de || !c.r else de

/-- one read: it fails if it is a readdir and there is no dirent, else it gives the entry and goes on -/
theorem read_cases {L : Lib} {fd pos : ℕ} {l : List RduEnt} {de : Bool} (ha : Awaits L fd pos l de) (c : Read)
    (he : c.env.Ok) :
    ((c.r || de_after l de c) = false ∧ ∃ r, rdu_readdir L fd pos c.r c.env = some r ∧ r.err = -1) ∨
      ((c.r || de_after l de c) = true ∧ ∃ r, rdu_readdir L fd pos c.r c.env = some r ∧ r.err = 0 ∧
        r.rde = (listing_after l c)[pos]?.map (dirent pos) ∧ r.pos = pos + 1 ∧
        Awaits r.lib fd (pos + 1) (listing_after l c) (de_after l de c)) := by
  obtain ⟨i, p, q, L', took, hlock, hq, hread⟩ := reading_ok he L fd pos c.r
  have hp := rdu_buf_lock_locked hlock
  obtain ⟨hself, -⟩ := hp.set (hq.fd.trans hp.fd_eq)
  obtain ⟨hde, hinit, hheld⟩ := ha _ _ _ _ hlock
  obtain ⟨hholds, hqde⟩ : q.Holds true (listing_after l c) ∧ q.de = de_after l de c := by
    unfold Refilled at hq
    by_cases hl : l = []
    · -- a new listing
      rw [if_pos (hinit.2 hl)] at hq
      obtain ⟨hpos, hnpos, hqde⟩ := rdu_init_done hq.1
      rw [listing_after, if_pos hl, de_after, if_pos hl, ← hde]
      exact ⟨⟨hpos, hnpos, by simp⟩, hqde⟩
    · -- the slot as it was
      rw [if_neg (mt hinit.1 hl)] at hq
      rw [hq.1, listing_after, if_neg hl, de_after, if_neg hl]
      exact ⟨⟨(hheld hl).1, (hheld hl).2, by simp⟩, hde⟩
  rw [hread, ← hqde]
  cases hbuf : (c.r || q.de) with
  | false =>
    rw [if_pos rfl]
    exact Or.inl ⟨rfl, _, rfl, rfl⟩
  | true =>
    rw [if_neg (by simp), rdu_pos_holds hholds]
    exact Or.inr ⟨rfl, _, rfl, rfl, rfl, rfl, awaits_slot hself hholds.pos hholds.npos⟩

/-- what the reads give as long as none fails; the functions play no part -/
def expected : List RduEnt → ℕ → List Read → List (ℤ × Option Dirent)
  | _, _, [] => []
  | l, pos, c :: cs =>
    (0, (listing_after l c)[pos]?.map (dirent pos)) :: expected (listing_after l c) (pos + 1) cs

theorem expected_by_r (l : List RduEnt) (pos : ℕ) (cs : List Read) :
    expected l pos (cs.map Read.by_r) = expected l pos cs := by
  induction cs generalizing l pos with
  | nil => rfl
  | cons c cs ih =>
    have hl : listing_after l c.by_r = listing_after l c := rfl
    rw [List.map_cons, expected, expected, hl, ih]

theorem expected_err (l : List RduEnt) (pos : ℕ) (cs : List Read) : ∀ x ∈ expected l pos cs, x.1 = 0 := by
  induction cs generalizing l pos with
  | nil => simp [expected]
  | cons c cs ih =>
    intro x hx
    rcases List.mem_cons.1 hx with rfl | hx
    · rfl
    · exact ih _ _ x hx

/-- no readdir comes to a listing without a dirent -/
def Served (l : List RduEnt) (de : Bool) : List Read → Prop
  | [] => True
  | c :: cs => (c.r || de_after l de c) = true ∧ Served (listing_after l c) (de_after l de c) cs

theorem mixed_iff {L : Lib} {fd pos : ℕ} {l : List RduEnt} {de : Bool} (ha : Awaits L fd pos l de) (cs : List Read)
    (hok : ∀ c ∈ cs, c.env.Ok) :
    (Served l de cs → mixed fd L pos cs = some (expected l pos cs)) ∧
      (¬ Served l de cs → ∀ rs, mixed fd L pos cs = some rs → ∃ x ∈ rs, x.1 ≠ 0) := by
  induction cs generalizing L pos l de with
  | nil => exact ⟨fun _ => rfl, fun h => absurd trivial h⟩
  | cons c cs ih =>
    rcases read_cases ha c (hok c List.mem_cons_self) with ⟨hno, r, hr, herr⟩ | ⟨hyes, r, hr, herr, hrde, hpos, hnext⟩
    · refine ⟨fun hs => absurd hs.1 (by simp [hno]), ?_⟩
      intro _ rs hrs
      rw [mixed, hr, Option.bind_some] at hrs
      obtain ⟨ts, -, rfl⟩ := Option.map_eq_some_iff.1 hrs
      exact ⟨_, List.mem_cons_self, by simp [herr]⟩
    · obtain ⟨hgood, hbad⟩ := ih hnext fun d hd => hok d (List.mem_cons_of_mem c hd)
      refine ⟨?_, ?_⟩
      · intro hs
        rw [mixed, hr, Option.bind_some, hpos, hgood hs.2, herr, hrde]
        rfl
      · intro hs rs hrs
        rw [mixed, hr, Option.bind_some, hpos] at hrs
        obtain ⟨ts, hts, rfl⟩ := Option.map_eq_some_iff.1 hrs
        obtain ⟨x, hx, hne⟩ := hbad (fun h => hs ⟨hyes, h⟩) ts hts
        exact ⟨x, List.mem_cons_of_mem _ hx, hne⟩

/-- once a listing is there, the dirent stays as it is -/
theorem served_held {l : List RduEnt} (hl : l ≠ []) (de : Bool) (cs : List Read) :
    Served l de cs ↔ de = true ∨ ∀ c ∈ cs, c.r = true := by
  induction cs with
  | nil => simp [Served]
  | cons c cs ih =>
    rw [Served, listing_after, if_neg hl, de_after, if_neg hl, ih]
    cases de <;> simp

/-- a readdir is among the calls up to the one that takes the listing, or none comes after it -/
def DirentInTime (cs : List Read) : Prop :=
  match cs.findIdx? fun c => c.env.init.listing ≠ [] with
  | none => True
  | some m => (∃ c ∈ cs.take (m + 1), c.r = false) ∨ ∀ c ∈ cs.drop (m + 1), c.r = true

theorem served_empty (cs : List Read) (de : Bool) : Served [] de cs ↔ de = true ∨ DirentInTime cs := by
  induction cs generalizing de with
  | nil => simp [Served, DirentInTime]
  | cons c cs ih =>
    have hl : listing_after [] c = c.env.init.listing := rfl
    have hde : de_after [] de c = (de || !c.r) := rfl
    have hbuf : (c.r || (de || !c.r)) = true := by cases c.r <;> simp
    rw [Served, hl, hde]
    by_cases hempty : c.env.init.listing = []
    · -- the next call takes a listing again
      have hidx : (c :: cs).findIdx? (fun c => c.env.init.listing ≠ []) =
          (cs.findIdx? fun c => c.env.init.listing ≠ []).map (· + 1) := by
        rw [List.findIdx?_cons, if_neg (by simp [hempty])]
      rw [hempty, ih, DirentInTime, DirentInTime, hidx]
      cases cs.findIdx? fun c => c.env.init.listing ≠ [] with
      | none => simp [hbuf]
      | some m => cases hr : c.r <;> cases de <;> simp [hr]
    · have hidx : (c :: cs).findIdx? (fun c => c.env.init.listing ≠ []) = some 0 := by
        rw [List.findIdx?_cons, if_pos (by simp [hempty])]
      rw [served_held hempty, DirentInTime, hidx]
      cases hr : c.r <;> cases de <;> simp [hr]

/-- **readdir and readdir_r are interchangeable only if a readdir comes in time.** In every state that calls without
failure lead to, for a stream that was just opened and every sequence of reads by either function without failing calls:
they give what readdir_r gives, and no error, if and only if a readdir is among the calls up to the one that takes the
listing (the first one, if the directory is not empty), or none comes after that. -/
theorem mixed_reads_iff (calls : List Call) (s : Sys) (hok : ∀ c ∈ calls, c.Ok) (h : exec step init calls = some s)
    (fd : ℕ) (hfd : ¬ s.opened fd) (cs : List Read) (hcs : ∀ c ∈ cs, c.env.Ok) :
    Interchangeable s.lib fd cs ↔ DirentInTime cs := by
  have hfresh := awaits_fresh (tidy_run hok h) hfd
  have hcs' : ∀ c ∈ cs.map Read.by_r, c.env.Ok := by
    intro c hc
    obtain ⟨d, hd, rfl⟩ := List.mem_map.1 hc
    exact hcs d hd
  have hserved : Served [] false cs ↔ DirentInTime cs := by simp [served_empty]
  have hby_r : Served [] false (cs.map Read.by_r) := by
    rw [served_empty, DirentInTime]
    right
    split
    · trivial
    · right
      intro c hc
      obtain ⟨d, -, rfl⟩ := List.mem_map.1 (List.mem_of_mem_drop hc)
      rfl
  rw [← hserved]
  constructor
  · intro ⟨rs, hrs, _, hzero⟩
    by_contra hno
    obtain ⟨x, hx, hne⟩ := (mixed_iff hfresh cs hcs).2 hno rs hrs
    exact hne (hzero x hx)
  · intro hs
    refine ⟨expected [] 0 cs, (mixed_iff hfresh cs hcs).1 hs, ?_, expected_err _ _ _⟩
    rw [(mixed_iff hfresh _ hcs').1 hby_r, expected_by_r]

/-- a read of a directory with entries -/
def reads (r : Bool) : Read := ⟨r, finds twoBranches.flatten⟩

theorem mixed_reads_in_time : Interchangeable init.lib 3 [reads false, reads true, reads false] := by
  refine (mixed_reads_iff [] init (by simp) rfl 3 (by simp [Sys.opened, init]) _ ?_).2 ?_
  · intro c hc
    have henv : c.env = finds twoBranches.flatten := by
      rcases List.mem_cons.1 hc with rfl | hc
      · rfl
      · rcases List.mem_cons.1 hc with rfl | hc
        · rfl
        · rw [List.mem_singleton.1 hc]
          rfl
    rw [henv]
    exact finds_ok _
  · have hidx : [reads false, reads true, reads false].findIdx? (fun c => c.env.init.listing ≠ []) = some 0 := by
      decide +kernel
    rw [DirentInTime, hidx]
    exact Or.inl ⟨reads false, by simp, rfl⟩

/-- readdir after readdir_r: -1 instead of the second entry -/
theorem readdir_after_readdir_r :
    mixed 3 init.lib 0 [reads true, reads false] ≠ mixed 3 init.lib 0 [reads true, reads true] ∧
      ¬ Interchangeable init.lib 3 [reads true, reads false] := by
  have hlast : (mixed 3 init.lib 0 [reads true, reads false]).map (fun rs => rs.map Prod.fst) = some [0, -1] := by
    decide +kernel
  refine ⟨by decide +kernel, ?_⟩
  intro ⟨rs, hrs, _, hzero⟩
  rw [hrs, Option.map_some, Option.some.injEq] at hlast
  obtain ⟨x, hx, hneg⟩ := List.mem_map.1 (show (-1 : ℤ) ∈ rs.map Prod.fst by simp [hlast])
  simp [hzero x hx] at hneg

end AufsUtil.Rdu
