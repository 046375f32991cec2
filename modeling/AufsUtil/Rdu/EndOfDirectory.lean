/-
Errors and the end of a directory (`libau/rdu.c`, `libau/rdu_lib.c`).

rdu_readdir returns 0 without an entry at the end of a directory. The calls behind it signal failure in different ways:
rdu_lib_init returns 1, rdu_init and rdu_append -1, rdu_new and rdu_buf_lock a NULL pointer; rdu_pos returns -1 too, but
for the end, which becomes 0. The NULL pointer of rdu_buf_lock is not converted: err is still the 0 of rdu_lib_init. So
a failing malloc(3) in rdu_new, or realloc(3) in rdu_append, ends the directory wherever the stream is.

- `honest_iff`: the ends of a read, as `Reading` has them, one by one.
- `end_of_directory_iff`: for every table, stream, position and failing calls, a read returns 0 without an entry only
  behind the stream's listing, if and only if it fails before rdu_buf_lock, or gets a slot that serves the position.
- `end_of_directory_run`: in the states of a run the second condition is one on streams whose last rdu_init failed. They
  are given a slot without pos[] but perhaps with an npos, and readdir_r takes a position behind that for the end.
-/
import Mathlib.Tactic
import AufsUtil.Rdu.Recycle

namespace AufsUtil.Rdu

open AufsUtil.Runs AufsUtil.Rdu.Recycle

/-! ## Ends of a read -/

/-- the read returns (it does not crash), and 0 without an entry only if the position is behind the merged listing that
the stream has in its slot -/
def Honest (L : Lib) (fd pos : ℕ) (de : Bool) (e : ReadEnv) : Prop :=
  ∃ r, rdu_readdir L fd pos de e = some r ∧
    (r.err = 0 → r.rde = none → ∃ p l, slotOf r.lib fd = some p ∧ p.pos = some l ∧ l.length ≤ pos)

/-- pos[] is there, and npos says of this position what the length of pos[] does -/
def Slot.Listed (p : Slot) (pos : ℕ) : Prop := ∃ l, p.pos = some l ∧ (pos < p.npos ↔ pos < l.length)

/-- a read at pos that is given this slot makes rdu_init, has no dirent to write to, or finds a listing in it -/
def Slot.Serves (p : Slot) (pos : ℕ) (de : Bool) : Prop :=
  pos = 0 ∨ p.npos = 0 ∨ (de || p.de) = false ∨ p.Listed pos

section Reads

variable {L : Lib} {fd pos : ℕ} {de : Bool} {e : ReadEnv}

/-- rdu_pos does not look behind pos[], and finds no entry only at its end -/
theorem rdu_pos_listed (q : Slot) (pos : ℕ) :
    (∃ rde, rdu_pos q pos = some rde ∧ (rde = none → ∃ l, q.pos = some l ∧ l.length ≤ pos)) ↔ q.Listed pos := by
  unfold rdu_pos Slot.Listed
  cases hl : q.pos with
  | none =>
    by_cases hlt : pos < q.npos <;> simp [hlt]
  | some l =>
    by_cases hlt : pos < q.npos
    · by_cases hlen : pos < l.length
      · simp [hlt, hlen]
      · simp [hlt, hlen, not_lt.1 hlen]
    · simp [hlt]

/-- a slot serves the position if, behind rdu_init, there is no dirent or there is a listing -/
theorem Refilled.serves_iff {x q : Slot} {took : Option (List RduEnt)}
    (h : Refilled { x with fd := (fd : ℤ) } pos de e.init q took) :
    x.Serves pos de ↔ (de || q.de) = false ∨ q.Listed pos := by
  unfold Refilled at h
  split_ifs at h with hinit
  · obtain ⟨hpos, hnpos, -⟩ := rdu_init_done h.1
    exact iff_of_true (hinit.imp_right Or.inl) (Or.inr ⟨_, hpos, by rw [hnpos]⟩)
  · obtain ⟨hpos, hnpos⟩ := not_or.1 hinit
    rw [h.1, Slot.Serves, or_iff_right hpos, or_iff_right hnpos]
    exact Iff.rfl

/-- no slot is handed out, and the stream has none -/
theorem handed_none_of_lock {L' : Lib} (h : rdu_buf_lock { L with rdu := true } fd e.new = (none, L')) :
    handed L fd e.new = none ∧ slotOf L fd = none := by
  have hmap := lock_handed L fd e.new
  rw [h, Option.map_none] at hmap
  have hnone := Option.map_eq_none_iff.1 hmap.symm
  refine ⟨hnone, ?_⟩
  unfold handed at hnone
  exact (Option.or_eq_none_iff.1 (Option.or_eq_none_iff.1 hnone).1).1

/-- the ends of a read, one by one -/
theorem honest_iff : Honest L fd pos de e ↔ (Started L e → ∃ x, handed L fd e.new = some x ∧ x.Serves pos de) := by
  have hcases := rdu_readdir_cases L fd pos de e
  unfold Honest
  generalize rdu_readdir L fd pos de e = o at hcases ⊢
  cases hcases with
  | not_started hs herr => exact iff_of_true ⟨_, rfl, fun h0 => absurd h0 herr⟩ fun h => absurd h hs
  | no_slot hs hlock =>
    -- the failure that is not converted
    obtain ⟨hnone, hslot⟩ := handed_none_of_lock hlock
    refine iff_of_false ?_ (by simp [hs, hnone])
    rintro ⟨r, hr, hend⟩
    obtain rfl := Option.some.inj hr
    obtain ⟨p, -, hp, -⟩ := hend rfl rfl
    cases hslot.symm.trans hp
  | init_failed hs hlock hinit hres herr =>
    obtain ⟨x, hx, rfl⟩ := handed_of_lock hlock
    exact iff_of_true ⟨_, rfl, fun h0 => absurd h0 herr⟩ fun _ => ⟨x, hx, hinit.imp_right Or.inl⟩
  | no_dirent hs hlock hq hde =>
    obtain ⟨x, hx, rfl⟩ := handed_of_lock hlock
    refine iff_of_true ⟨_, rfl, fun h0 => absurd h0 (by simp)⟩ fun _ => ⟨x, hx, ?_⟩
    exact hq.serves_iff.2 (Or.inl hde)
  | @answered i p q L' took hs hlock hq hde =>
    have hp := rdu_buf_lock_locked hlock
    have hself : slotOf { L' with slots := L'.slots.set i q } fd = some q := (hp.set (hq.fd.trans hp.fd_eq)).1
    obtain ⟨x, hx, rfl⟩ := handed_of_lock hlock
    have hserves : (Started L e → ∃ x, handed L fd e.new = some x ∧ x.Serves pos de) ↔ q.Listed pos := by
      have hiff := hq.serves_iff
      rw [or_iff_right (by simp [hde])] at hiff
      rw [hx, ← hiff]
      simp [hs]
    rw [hserves, ← rdu_pos_listed]
    constructor
    · rintro ⟨r, hr, hend⟩
      obtain ⟨rde, hrde, rfl⟩ := Option.map_eq_some_iff.1 hr
      refine ⟨rde, hrde, fun hnone => ?_⟩
      obtain ⟨p, l, hp, hl, hle⟩ := hend rfl hnone
      cases hself.symm.trans hp
      exact ⟨l, hl, hle⟩
    · rintro ⟨rde, hrde, hend⟩
      refine ⟨_, by rw [hrde, Option.map_some], fun _ hnone => ?_⟩
      obtain ⟨l, hl, hle⟩ := hend hnone
      exact ⟨q, l, hself, hl, hle⟩

end Reads

/-! ## Every table -/

/-- what rdu_buf_lock can give the stream serves the position: its own slot, else the first free one, else new memory -/
def Provided (L : Lib) (fd pos : ℕ) (de : Bool) (e : NewEnv) : Prop :=
  match slotOf L fd, L.slots.find? (·.fd = -1) with
  | some p, _ => p.Serves pos de
  | none, some q => q.Serves pos de
  | none, none =>
    e.oom = false ∧ (L.slots.length ≤ L.rdu_lim - 1 ∨ e.append_oom = false) ∧ (pos = 0 ∨ e.npos = 0 ∨ de = false)

theorem provided_iff (L : Lib) (fd pos : ℕ) (de : Bool) (e : NewEnv) :
    Provided L fd pos de e ↔ ∃ x, handed L fd e = some x ∧ x.Serves pos de := by
  unfold Provided handed
  cases slotOf L fd with
  | some p => simp
  | none =>
    cases L.slots.find? (·.fd = -1) with
    | some q => simp
    | none =>
      cases hoom : (e.oom || (L.rdu_lim - 1 < L.slots.length && e.append_oom)) with
      | true =>
        have hfull : e.oom = true ∨ (L.rdu_lim - 1 < L.slots.length ∧ e.append_oom = true) := by simpa using hoom
        refine iff_of_false ?_ (by simp)
        rintro ⟨hnew, hroom, -⟩
        rcases hfull with hfull | ⟨hlt, hfull⟩
        · simp [hfull] at hnew
        · rcases hroom with hle | hroom
          · omega
          · simp [hfull] at hroom
      | false =>
        have hroom : e.oom = false ∧ (L.rdu_lim - 1 < L.slots.length → e.append_oom = false) := by simpa using hoom
        have hnew : L.slots.length ≤ L.rdu_lim - 1 ∨ e.append_oom = false := by
          rcases le_or_gt L.slots.length (L.rdu_lim - 1) with hle | hlt
          · exact Or.inl hle
          · exact Or.inr (hroom.2 hlt)
        simp [Slot.Serves, Slot.Listed, hroom.1, hnew]

/-- **An error is taken for the end of a directory when there is no slot for it.** For every table, stream, position
and failing calls: a read returns, and 0 without an entry only behind the merged listing of the stream, if and only if
it fails before rdu_buf_lock, or there is a slot for the stream (its own, a free one, or memory for a new one) that
serves the position. -/
theorem end_of_directory_iff (L : Lib) (fd pos : ℕ) (de : Bool) (e : ReadEnv) :
    Honest L fd pos de e ↔ (Started L e → Provided L fd pos de e.new) := by
  rw [provided_iff]
  exact honest_iff

/-- the first read of a process finds the directory's names, but malloc(3) in rdu_new fails -/
def no_memory : ReadEnv := { finds twoBranches.flatten with new := ⟨true, false, false, 0⟩ }

/-- it returns 0 without an entry, and ends a directory that was not begun -/
theorem empty_without_memory :
    ¬Honest init.lib 3 0 false no_memory ∧ no_memory.init.listing.length = 2 ∧
      rdu_readdir init.lib 3 0 false no_memory = some ⟨0, none, ⟨true, [], 8⟩, 0, none⟩ := by
  refine ⟨?_, by decide +kernel, rfl⟩
  rintro ⟨r, hr, hend⟩
  obtain rfl := Option.some.inj (show some ⟨0, none, ⟨true, [], 8⟩, 0, none⟩ = some r from hr)
  obtain ⟨p, -, hp, -⟩ := hend rfl rfl
  cases hp

/-! ## Every run -/

/-- the slot of a stream of a run: the position is lost only with a failed rdu_init behind it -/
theorem serves_iff {s : Proc} (hi : Recycle.Inv s) {d : Dir} (hd : d ∈ s.sys.dirs) {e : NewEnv} {x : Slot}
    (hx : handed s.sys.lib d.fd e = some x) (de : Bool) :
    x.Serves d.pos de ↔ (d.fd ∈ s.failed → d.pos = 0 ∨ x.npos = 0 ∨ de = false) := by
  by_cases hF : d.fd ∈ s.failed
  · obtain ⟨hnone, hde⟩ := (hi.dirs d hd).handed_lost hF hi.freed hi.tidy.freed hx
    simp [Slot.Serves, Slot.Listed, hnone, hde, hF]
  · refine iff_of_true ?_ fun h => absurd h hF
    cases hl : d.listing with
    | none => exact Or.inl ((hi.dirs d hd).fresh hl).1
    | some l =>
      obtain ⟨p, hp, hpos, hnpos⟩ := (hi.dirs d hd).held hF l hl
      unfold handed at hx
      rw [hp, Option.some_or, Option.some_or, Option.some.injEq] at hx
      exact Or.inr (Or.inr (Or.inr ⟨l, hx ▸ hpos, by rw [← hx, hnpos]⟩))

/-- **In a run.** In every state that calls lead to, whatever fails in them: a read of an open stream, by either
function, returns 0 without an entry only behind the stream's listing, if and only if it fails before rdu_buf_lock, or
there is a slot for the stream, and, if the last rdu_init of the stream failed, the read takes a listing or is by
readdir. -/
theorem end_of_directory_run (calls : List Act) (s : Proc) (h : exec act Proc.init calls = some s) :
    ∀ d ∈ s.sys.dirs, ∀ (de : Bool) (e : ReadEnv), Honest s.sys.lib d.fd d.pos de e ↔
      (Started s.sys.lib e → ∃ x, handed s.sys.lib d.fd e.new = some x ∧
        (d.fd ∈ s.failed → d.pos = 0 ∨ x.npos = 0 ∨ de = false)) := by
  have hi := exec_invariant act Recycle.Inv (fun _ _ _ => Recycle.inv_step) Recycle.inv_init h
  intro d hd de e
  rw [honest_iff]
  refine imp_congr_right fun _ => exists_congr fun x => and_congr_right fun hx => ?_
  exact serves_iff hi hd hx de

end AufsUtil.Rdu
