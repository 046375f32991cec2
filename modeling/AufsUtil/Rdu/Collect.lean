/-
Collecting the entries of a directory (the loop over AUFS_CTL_RDU in rdu_init, `libau/rdu_lib.c`).

The kernel writes as many of the remaining entries as fit into the window [param.ent, param.ent + param.sz), and says
how many (rent), where they end (tail) and whether some are left (full). If some are left the buffer grows by blk, and
the window becomes what is behind the tail. The loop ends with the first call that writes nothing.

- `collect_terminates`: it does end, whatever fails.
- `collects_all_iff`: every run that ends without an error has collected the whole directory if and only if the window
  never ends up too small for the next entry (`NoGap`): of the stretches into which the growth divides the buffer, the
  first sz bytes and then blk bytes each, every one that ends before the listing does contains the end of an entry.
  Where one does not, the kernel writes nothing although entries are left, and the loop takes this for the end.

What the model keeps of C: the addresses before and after realloc(3), which may move the block; the contents of a new
block are arbitrary behind the old ones. The kernel is its documented behaviour (`aufs_ctl_rdu`); its calls and
realloc(3) may fail (`CallEnv`). Sizes are natural numbers, as none of them exceeds the address space.
-/
import Mathlib.Tactic
import AufsUtil.Rdu.Compact

namespace AufsUtil.Rdu

open AufsUtil.CStr AufsUtil.Memory

/-! ## The kernel -/

/-- the bytes that entries take in the buffer -/
def size (es : List RduEnt) : ℕ := (es.map fun e => au_rdu_len e.nlen).sum

/-- how many of the entries fit into sz bytes -/
def fit : ℕ → List RduEnt → ℕ
  | _, [] => 0
  | sz, e :: es => if au_rdu_len e.nlen ≤ sz then fit (sz - au_rdu_len e.nlen) es + 1 else 0

/-- the entries written from u on -/
def put (m : Mem) : ℕ → List RduEnt → Mem
  | _, [] => m
  | u, e :: es => put (write m u e.image) (u + au_rdu_len e.nlen) es

/-- p->ent, p->sz, p->npos, param.ent, param.sz; `rest` is what the cookie stands for, the entries not handed out yet -/
structure Window where
  ent : ℕ
  sz : ℕ
  npos : ℕ
  param_ent : ℕ
  param_sz : ℕ
  rest : List RduEnt
  mem : Mem

structure Answer where
  rent : ℕ
  full : Bool
  tail : ℕ
  rest : List RduEnt
  mem : Mem

def aufs_ctl_rdu (w : Window) : Answer :=
  let got := w.rest.take (fit w.param_sz w.rest)
  ⟨got.length, got.length < w.rest.length, w.param_ent + size got, w.rest.drop got.length, put w.mem w.param_ent got⟩

/-! ## The loop -/

/-- one turn: whether the ioctl succeeds, and the address realloc(3) returns with what the memory holds otherwise -/
structure CallEnv where
  ioctl : Bool
  realloc : Option (ℕ × Mem)

/-- after the ioctl: `p->npos += param.rent`, and what the kernel has written -/
def Window.received (w : Window) : Window :=
  let a := aufs_ctl_rdu w
  { w with npos := w.npos + a.rent, rest := a.rest, mem := a.mem }

/-- the buffer has moved to e and is larger by blk; the window starts at its tail -/
def Window.grow (w : Window) (blk tail e : ℕ) (junk : Mem) : Window :=
  let used := tail - w.param_ent
  { w with
    param_sz := w.param_sz + blk - used
    ent := e
    param_ent := e + (used + (w.param_ent - w.ent))
    sz := w.sz + blk
    mem := realloc w.mem junk w.ent w.sz e }

/-- `none` when the fuel is used up -/
def collect (blk : ℕ+) (env : ℕ → CallEnv) : ℕ → ℕ → Window → Option (ℤ × Window)
  | 0, _, _ => none
  | fuel + 1, turn, w =>
    if !(env turn).ioctl then some (-1, w)
    else if (aufs_ctl_rdu w).rent = 0 then some (0, w.received)
    else if !(aufs_ctl_rdu w).full then collect blk env fuel (turn + 1) w.received
    else
      match (env turn).realloc with
      | none => some (-1, w.received)
      | some (e, junk) => collect blk env fuel (turn + 1) (w.received.grow blk (aufs_ctl_rdu w).tail e junk)

/-- before the loop, with a buffer of sz bytes -/
def Window.start (ent sz : ℕ) (mem : Mem) (ents : List RduEnt) : Window := ⟨ent, sz, 0, ent, sz, ents, mem⟩

/-- all entries were counted, and stand back to back from p->ent on -/
def Complete (ents : List RduEnt) (w : Window) : Prop := w.npos = ents.length ∧ Layout w.mem w.ent ents

/-! ## What a call writes -/

@[simp] theorem size_nil : size [] = 0 := rfl

@[simp] theorem size_cons (e : RduEnt) (es : List RduEnt) : size (e :: es) = au_rdu_len e.nlen + size es := by
  simp [size]

theorem stop_eq (u : ℕ) (es : List RduEnt) : stop u es = u + size es := rfl

theorem fit_spec (es : List RduEnt) : ∀ sz, fit sz es ≤ es.length ∧ size (es.take (fit sz es)) ≤ sz ∧
    (fit sz es < es.length → sz < size (es.take (fit sz es + 1))) := by
  induction es with
  | nil => exact fun sz => ⟨le_rfl, Nat.zero_le _, fun h => absurd h (by simp)⟩
  | cons e es ih =>
    intro sz
    by_cases hle : au_rdu_len e.nlen ≤ sz
    · obtain ⟨h1, h2, h3⟩ := ih (sz - au_rdu_len e.nlen)
      rw [fit, if_pos hle]
      simp only [List.length_cons, List.take_succ_cons, size_cons]
      refine ⟨by omega, by omega, ?_⟩
      intro hlt
      have := h3 (by omega)
      omega
    · rw [fit, if_neg hle]
      refine ⟨Nat.zero_le _, Nat.zero_le _, ?_⟩
      intro _
      simp only [Nat.zero_add, List.take_succ_cons, List.take_zero, size_cons, size_nil]
      omega

theorem put_frame {x : ℕ} {b : Bytes} (es : List RduEnt) :
    ∀ (m : Mem) (u : ℕ), At m x b → x + b.length ≤ u → At (put m u es) x b := by
  induction es with
  | nil => exact fun m u h _ => h
  | cons e es ih =>
    intro m u h hle
    exact ih _ _ (h.write (Or.inl hle)) (by omega)

theorem put_layout (es : List RduEnt) : ∀ (m : Mem) (u : ℕ), Layout (put m u es) u es := by
  induction es with
  | nil => exact fun m u => trivial
  | cons e es ih =>
    intro m u
    refine ⟨?_, ih _ _⟩
    exact put_frame es _ _ (at_write m u e.image) (Nat.add_le_add_left (image_le e) u)

/-- a block that was moved holds the same entries -/
theorem realloc_layout {m junk : Mem} {a n b : ℕ} (es : List RduEnt) : ∀ d, d + size es ≤ n → Layout m (a + d) es →
    Layout (realloc m junk a n b) (b + d) es := by
  induction es with
  | nil => exact fun d _ _ => trivial
  | cons e es ih =>
    intro d hd hlay
    rw [size_cons] at hd
    have himage := image_le e
    refine ⟨hlay.1.realloc (by omega), ?_⟩
    rw [Nat.add_assoc]
    exact ih (d + au_rdu_len e.nlen) (by omega) (by rw [← Nat.add_assoc]; exact hlay.2)

/-! ## One turn -/

/-- where the first i entries end -/
def ends (ents : List RduEnt) (i : ℕ) : ℕ := size (ents.take i)

theorem size_append (es fs : List RduEnt) : size (es ++ fs) = size es + size fs := by simp [size]

theorem take_add_drop (ents : List RduEnt) (i k : ℕ) : ents.take (i + k) = ents.take i ++ (ents.drop i).take k := by
  rw [List.take_add]

theorem ends_add (ents : List RduEnt) (i k : ℕ) : ends ents (i + k) = ends ents i + size ((ents.drop i).take k) := by
  rw [ends, take_add_drop, size_append]
  rfl

theorem ends_mono (ents : List RduEnt) {i j : ℕ} (h : i ≤ j) : ends ents i ≤ ends ents j := by
  obtain ⟨k, rfl⟩ := Nat.exists_eq_add_of_le h
  rw [ends_add]
  exact Nat.le_add_right _ _

theorem ends_length (ents : List RduEnt) : ends ents ents.length = size ents := by rw [ends, List.take_length]

/-- i entries are in the buffer, which has cap bytes; the window is what is behind them -/
structure Held (ents : List RduEnt) (i cap : ℕ) (w : Window) : Prop where
  npos : w.npos = i
  le : i ≤ ents.length
  rest : w.rest = ents.drop i
  sz : w.sz = cap
  param_ent : w.param_ent = w.ent + ends ents i
  fits : ends ents i ≤ cap
  param_sz : w.param_sz = cap - ends ents i
  layout : Layout w.mem w.ent (ents.take i)

theorem held_start (ent sz : ℕ) (mem : Mem) (ents : List RduEnt) : Held ents 0 sz (.start ent sz mem ents) :=
  ⟨rfl, Nat.zero_le _, rfl, rfl, rfl, Nat.zero_le _, rfl, trivial⟩

/-- the number of entries that are in the buffer after a call -/
def reach (ents : List RduEnt) (i cap : ℕ) : ℕ := i + fit (cap - ends ents i) (ents.drop i)

section Turn

variable {ents : List RduEnt} {i cap : ℕ} {w : Window}

/-- the call fills the window: no entry more would end inside of it -/
theorem reach_spec (h : Held ents i cap w) : i ≤ reach ents i cap ∧ reach ents i cap ≤ ents.length ∧
    ends ents (reach ents i cap) ≤ cap ∧ (reach ents i cap < ents.length → cap < ends ents (reach ents i cap + 1)) := by
  obtain ⟨h1, h2, h3⟩ := fit_spec (ents.drop i) (cap - ends ents i)
  have hle := h.le
  have hfits := h.fits
  rw [List.length_drop] at h1 h3
  unfold reach
  refine ⟨Nat.le_add_right _ _, by omega, ?_, ?_⟩
  · rw [ends_add]
    omega
  · intro hlt
    rw [Nat.add_assoc, ends_add]
    have := h3 (by omega)
    omega

/-- what the kernel answers -/
theorem answer_eq (h : Held ents i cap w) :
    (aufs_ctl_rdu w).rent = reach ents i cap - i ∧
      (aufs_ctl_rdu w).full = decide (reach ents i cap < ents.length) ∧
      (aufs_ctl_rdu w).tail = w.ent + ends ents (reach ents i cap) ∧
      (aufs_ctl_rdu w).rest = ents.drop (reach ents i cap) ∧
      Layout (aufs_ctl_rdu w).mem w.ent (ents.take (reach ents i cap)) := by
  obtain ⟨h1, -, -⟩ := fit_spec (ents.drop i) (cap - ends ents i)
  have hle := h.le
  have hlen : ((ents.drop i).take (fit (cap - ends ents i) (ents.drop i))).length = fit (cap - ends ents i) (ents.drop i) :=
    List.length_take_of_le h1
  rw [List.length_drop] at h1
  simp only [aufs_ctl_rdu, h.rest, h.param_sz, hlen]
  refine ⟨?_, ?_, ?_, ?_, ?_⟩
  · unfold reach
    omega
  · rw [List.length_drop]
    unfold reach
    apply decide_eq_decide.2
    omega
  · rw [h.param_ent, Nat.add_assoc, ← ends_add]
    rfl
  · rw [List.drop_drop]
    rfl
  · rw [reach, take_add_drop, layout_append, stop_eq]
    refine ⟨?_, ?_⟩
    · refine h.layout.frame (fun x b => put_frame _ _ _) ?_
      rw [h.param_ent]
      exact le_rfl
    · rw [h.param_ent]
      exact put_layout _ _ _

/-- the window after the buffer has grown -/
theorem held_grown (h : Held ents i cap w) (blk e : ℕ) (junk : Mem) :
    Held ents (reach ents i cap) (cap + blk) (w.received.grow blk (aufs_ctl_rdu w).tail e junk) := by
  obtain ⟨hge, hle, hfit, -⟩ := reach_spec h
  obtain ⟨hrent, -, htail, hrest, hlay⟩ := answer_eq h
  have hmono := ends_mono ents hge
  have hnpos := h.npos
  have hpent := h.param_ent
  have hpsz := h.param_sz
  have hfits := h.fits
  refine ⟨?_, hle, hrest, ?_, ?_, by omega, ?_, ?_⟩
  · simp only [Window.grow, Window.received, hrent, hnpos]
    omega
  · simp only [Window.grow, Window.received, h.sz]
  · simp only [Window.grow, Window.received, htail, hpent]
    omega
  · simp only [Window.grow, Window.received, htail, hpent, hpsz]
    omega
  · have hsz : 0 + size (ents.take (reach ents i cap)) ≤ w.sz := by
      rw [h.sz, Nat.zero_add]
      exact hfit
    exact realloc_layout (ents.take (reach ents i cap)) 0 hsz hlay

end Turn

/-! ## Runs -/

section Run

variable (blk : ℕ+) (env : ℕ → CallEnv)

/-- nothing is left: the next call ends the loop -/
theorem collect_finished {fuel turn : ℕ} {w : Window} (hrest : w.rest = []) :
    collect blk env (fuel + 1) turn w = some (if (env turn).ioctl then 0 else -1, w) := by
  obtain ⟨ent, sz, npos, pe, ps, rest, mem⟩ := w
  obtain rfl : rest = [] := hrest
  unfold collect
  cases (env turn).ioctl with
  | false => rfl
  | true => rfl

/-- one turn: the ioctl fails; it writes nothing; it writes all that is left; or it writes a part and the buffer grows,
if realloc(3) lets it -/
theorem collect_cases {ents : List RduEnt} {i cap : ℕ} {w : Window} (h : Held ents i cap w) (turn : ℕ) :
    ((env turn).ioctl = false ∧ ∀ fuel, collect blk env (fuel + 1) turn w = some (-1, w)) ∨
      (reach ents i cap = i ∧ ∃ w', (∀ fuel, collect blk env (fuel + 1) turn w = some (0, w')) ∧ w'.npos = i ∧
        Layout w'.mem w'.ent (ents.take i)) ∨
      (i < reach ents i cap ∧ reach ents i cap = ents.length ∧
        ∃ w', (∀ fuel, collect blk env (fuel + 1) turn w = collect blk env fuel (turn + 1) w') ∧ w'.rest = [] ∧
          Complete ents w') ∨
      (i < reach ents i cap ∧ reach ents i cap < ents.length ∧
        (((env turn).realloc = none ∧ ∃ w', ∀ fuel, collect blk env (fuel + 1) turn w = some (-1, w')) ∨
          ∃ w', (∀ fuel, collect blk env (fuel + 1) turn w = collect blk env fuel (turn + 1) w') ∧
            Held ents (reach ents i cap) (cap + blk) w')) := by
  obtain ⟨hge, hle, -, -⟩ := reach_spec h
  obtain ⟨hrent, hfull, -, hrest, hlay⟩ := answer_eq h
  by_cases hio : (!(env turn).ioctl) = true
  · refine Or.inl ⟨by simpa using hio, ?_⟩
    intro fuel
    rw [collect, if_pos hio]
  right
  by_cases hzero : (aufs_ctl_rdu w).rent = 0
  · have hi : reach ents i cap = i := by omega
    refine Or.inl ⟨hi, w.received, ?_, ?_, ?_⟩
    · intro fuel
      rw [collect, if_neg hio, if_pos hzero]
    · simp only [Window.received, hzero, h.npos]
      rfl
    · rw [hi] at hlay
      exact hlay
  right
  by_cases hall : reach ents i cap = ents.length
  · refine Or.inl ⟨by omega, hall, w.received, ?_, ?_, ?_, ?_⟩
    · intro fuel
      rw [collect, if_neg hio, if_neg hzero, if_pos (by simp [hfull, hall])]
    · simp only [Window.received, hrest, hall, List.drop_length]
    · simp only [Window.received, hrent, h.npos]
      omega
    · rw [hall, List.take_length] at hlay
      exact hlay
  · have hmore : ¬(!(aufs_ctl_rdu w).full) = true := by
      simp [hfull]
      omega
    refine Or.inr ⟨by omega, by omega, ?_⟩
    rcases hre : (env turn).realloc with _ | ⟨e, junk⟩
    · refine Or.inl ⟨rfl, w.received, ?_⟩
      intro fuel
      rw [collect, if_neg hio, if_neg hzero, if_neg hmore, hre]
    · refine Or.inr ⟨_, ?_, held_grown h blk e junk⟩
      intro fuel
      rw [collect, if_neg hio, if_neg hzero, if_neg hmore, hre]

/-- **The loop ends**, at the latest with one call for every entry that is left and two more. -/
theorem collect_terminates {ents : List RduEnt} : ∀ (fuel i cap turn : ℕ) (w : Window), Held ents i cap w →
    ents.length - i + 2 ≤ fuel → ∃ r, collect blk env fuel turn w = some r := by
  intro fuel
  induction fuel with
  | zero =>
    intro i cap turn w _ hfuel
    omega
  | succ fuel ih =>
    intro i cap turn w h hfuel
    rcases collect_cases blk env h turn with ⟨-, hr⟩ | ⟨-, w', hr, -⟩ | ⟨-, -, w', hr, hrest, -⟩ |
      ⟨hlt, hmore, ⟨-, w', hr⟩ | ⟨w', hr, hw'⟩⟩
    · exact ⟨_, hr fuel⟩
    · exact ⟨_, hr fuel⟩
    · obtain ⟨fuel, rfl⟩ : ∃ n, fuel = n + 1 := ⟨fuel - 1, by omega⟩
      rw [hr, collect_finished blk env hrest]
      exact ⟨_, rfl⟩
    · exact ⟨_, hr fuel⟩
    · rw [hr]
      exact ih _ _ _ _ hw' (by omega)

end Run

/-! ## Gaps -/

/-- the bytes the buffer has after it has grown j times -/
def capacity (sz blk j : ℕ) : ℕ := sz + j * blk

/-- the bytes it had before that -/
def capacity_before (sz blk : ℕ) : ℕ → ℕ
  | 0 => 0
  | j + 1 => capacity sz blk j

/-- every stretch by which the buffer grows contains the end of an entry, if it ends before the listing does -/
def NoGap (ents : List RduEnt) (sz blk : ℕ) : Prop :=
  ∀ j, capacity sz blk j < size ents → ∃ i, capacity_before sz blk j < ends ents i ∧ ends ents i ≤ capacity sz blk j

theorem capacity_succ (sz blk j : ℕ) : capacity sz blk (j + 1) = capacity sz blk j + blk := by
  unfold capacity
  rw [Nat.succ_mul, Nat.add_assoc]

section Gaps

variable {ents : List RduEnt} {sz : ℕ} (blk : ℕ+)

/-- without gaps, a run that ends without an error has collected all entries -/
theorem collect_complete (env : ℕ → CallEnv) (hgap : NoGap ents sz blk) : ∀ (fuel i j turn : ℕ) (w : Window) (r : ℤ × Window),
    Held ents i (capacity sz blk j) w → ends ents i ≤ capacity_before sz blk j →
    collect blk env fuel turn w = some r → r.1 = 0 → Complete ents r.2 := by
  intro fuel
  induction fuel with
  | zero =>
    intro i j turn w r _ _ hr
    cases hr
  | succ fuel ih =>
    intro i j turn w r h hbefore hrun herr
    obtain ⟨hge, hle, hfit, hmax⟩ := reach_spec h
    rcases collect_cases blk env h turn with ⟨-, hr⟩ | ⟨hi, w', hr, hnpos, hlay⟩ | ⟨-, -, w', hr, hrest, hdone⟩ |
      ⟨hlt, hmore, ⟨-, w', hr⟩ | ⟨w', hr, hw'⟩⟩
    · obtain rfl := Option.some.inj ((hr fuel).symm.trans hrun)
      simp at herr
    · -- a call that writes nothing: the next entry would fit, if there were one
      obtain rfl := Option.some.inj ((hr fuel).symm.trans hrun)
      have hall : i = ents.length := by
        by_contra hne
        have hlt : i < ents.length := by omega
        have hnext : capacity sz blk j < ends ents (i + 1) := by
          have := hmax (by omega)
          rwa [hi] at this
        have hsize : ends ents (i + 1) ≤ size ents := ends_length ents ▸ ends_mono ents hlt
        obtain ⟨k, hk, hk'⟩ := hgap j (by omega)
        have hik : i < k := by
          by_contra hki
          have := ends_mono ents (not_lt.1 hki)
          omega
        have := ends_mono ents (show i + 1 ≤ k by omega)
        omega
      refine ⟨hnpos.trans hall, ?_⟩
      rw [hall, List.take_length] at hlay
      exact hlay
    · cases fuel with
      | zero =>
        rw [hr] at hrun
        cases hrun
      | succ fuel =>
        rw [hr, collect_finished blk env hrest, Option.some.injEq] at hrun
        rw [← hrun]
        exact hdone
    · obtain rfl := Option.some.inj ((hr fuel).symm.trans hrun)
      simp at herr
    · rw [← capacity_succ] at hw'
      exact ih _ (j + 1) _ _ r hw' hfit ((hr fuel).symm.trans hrun) herr

/-- nothing fails -/
def quiet_calls : ℕ → CallEnv := fun _ => ⟨true, some (0, fun _ => 0)⟩

/-- at a gap the loop ends with entries left -/
theorem collect_dropped {j₀ : ℕ} (hbefore : capacity sz blk j₀ < size ents)
    (hgap : ∀ i, ¬(capacity_before sz blk j₀ < ends ents i ∧ ends ents i ≤ capacity sz blk j₀)) :
    ∀ (d i j turn : ℕ) (w : Window), j + d = j₀ → Held ents i (capacity sz blk j) w → i < ents.length →
      capacity_before sz blk j < ends ents (i + 1) →
      ∃ fuel r, collect blk quiet_calls fuel turn w = some r ∧ r.1 = 0 ∧ r.2.npos ≠ ents.length := by
  intro d
  induction d with
  | zero =>
    intro i j turn w hj h hi hlow
    obtain rfl : j = j₀ := by omega
    obtain ⟨hge, hle, hfit, -⟩ := reach_spec h
    rcases collect_cases blk quiet_calls h turn with ⟨hio, -⟩ | ⟨-, w', hr, hnpos, -⟩ | ⟨hlt, -, -⟩ | ⟨hlt, -, -⟩
    · cases hio
    · exact ⟨1, _, hr 0, rfl, by simp only [hnpos]; omega⟩
    · have hend := ends_mono ents (Nat.succ_le_of_lt hlt)
      exact absurd ⟨hlow, hend.trans hfit⟩ (hgap _)
    · have hend := ends_mono ents (Nat.succ_le_of_lt hlt)
      exact absurd ⟨hlow, hend.trans hfit⟩ (hgap _)
  | succ d ih =>
    intro i j turn w hj h hi hlow
    obtain ⟨hge, hle, hfit, hmax⟩ := reach_spec h
    have hcap : capacity sz blk j ≤ capacity sz blk j₀ := by
      unfold capacity
      exact Nat.add_le_add_left (Nat.mul_le_mul_right _ (by omega)) _
    rcases collect_cases blk quiet_calls h turn with ⟨hio, -⟩ | ⟨-, w', hr, hnpos, -⟩ | ⟨-, hall, -⟩ |
      ⟨-, hmore, ⟨hre, -⟩ | ⟨w', hr, hw'⟩⟩
    · cases hio
    · exact ⟨1, _, hr 0, rfl, by simp only [hnpos]; omega⟩
    · rw [hall, ends_length] at hfit
      omega
    · cases hre
    · rw [← capacity_succ] at hw'
      obtain ⟨fuel, r, hrun, hzero, hne⟩ := ih _ (j + 1) (turn + 1) w' (by omega) hw' hmore (hmax hmore)
      exact ⟨fuel + 1, r, (hr fuel).trans hrun, hzero, hne⟩

/-- **A successful collection is complete exactly when there is no gap.** For every directory, every size of the buffer
and every increment: the loop ends, and if it ends without an error all entries were counted and stand back to back from
p->ent on, whatever fails and wherever realloc(3) puts the buffer, if and only if every stretch by which the buffer
grows contains the end of an entry or reaches the end of the listing. -/
theorem collects_all_iff (ents : List RduEnt) (sz : ℕ) (blk : ℕ+) :
    (∀ (ent : ℕ) (mem : Mem) (env : ℕ → CallEnv),
      (∃ fuel r, collect blk env fuel 0 (.start ent sz mem ents) = some r) ∧
        ∀ fuel r, collect blk env fuel 0 (.start ent sz mem ents) = some r → r.1 = 0 → Complete ents r.2) ↔
      NoGap ents sz blk := by
  have hstart : ∀ (ent : ℕ) (mem : Mem), Held ents 0 (capacity sz blk 0) (.start ent sz mem ents) := by
    intro ent mem
    have hcap : capacity sz blk 0 = sz := by simp [capacity]
    rw [hcap]
    exact held_start ent sz mem ents
  constructor
  · intro hall
    by_contra hno
    obtain ⟨j, hj⟩ := not_forall.1 hno
    obtain ⟨hlt, hgap⟩ := Classical.not_imp.1 hj
    obtain ⟨e, es, rfl⟩ : ∃ e es, ents = e :: es := by
      cases ents with
      | nil => simp at hlt
      | cons e es => exact ⟨e, es, rfl⟩
    have hfirst : capacity_before sz blk 0 < ends (e :: es) (0 + 1) := by
      have := au_rdu_len_ge e.nlen
      simp only [capacity_before, ends, Nat.zero_add, List.take_succ_cons, List.take_zero, size_cons, size_nil]
      omega
    obtain ⟨fuel, r, hrun, hzero, hne⟩ := collect_dropped blk hlt (not_exists.1 hgap) j 0 0 0
      (.start 0 sz (fun _ => 0) (e :: es)) (Nat.zero_add j) (hstart 0 _) (by simp) hfirst
    exact hne ((hall 0 (fun _ => 0) quiet_calls).2 fuel r hrun hzero).1
  · intro hgap ent mem env
    refine ⟨⟨_, collect_terminates blk env (ents.length - 0 + 2) 0 _ 0 _ (hstart ent mem) le_rfl⟩, ?_⟩
    intro fuel r hrun hzero
    exact collect_complete blk env hgap fuel 0 0 0 _ r (hstart ent mem) (Nat.zero_le _) hrun hzero

end Gaps

/-- an entry named `aaaaaaaa`, which takes 32 bytes -/
def eightLetters : RduEnt := ⟨1, 0, 8, false, List.replicate 8 97, by decide, by decide, by decide⟩

theorem ends_replicate (e : RduEnt) (n i : ℕ) : ends (List.replicate n e) i = min i n * au_rdu_len e.nlen := by
  simp [ends, size, List.take_replicate]

/-- a buffer of BUFSIZ bytes, increments of 8 bytes and 257 names of 8 letters: 256 of them fill the buffer, the 257th
does not fit into 8 bytes more, and the loop ends without an error -/
theorem entries_dropped :
    ∃ fuel r, collect 8 quiet_calls fuel 0 (.start 0 8192 (fun _ => 0) (List.replicate 257 eightLetters)) = some r ∧
      r.1 = 0 ∧ ¬ Complete (List.replicate 257 eightLetters) r.2 := by
  have hlen : au_rdu_len eightLetters.nlen = 32 := by decide
  have hlength : (List.replicate 257 eightLetters).length = 257 := List.length_replicate
  have hsize : size (List.replicate 257 eightLetters) = 8224 := by
    rw [← ends_length, ends_replicate, hlen, hlength]
    rfl
  have hcap : capacity 8192 (8 : ℕ+) 1 = 8200 := by decide
  have hbefore : capacity_before 8192 (8 : ℕ+) 1 = 8192 := by decide
  have hgap : ∀ i, ¬(capacity_before 8192 (8 : ℕ+) 1 < ends (List.replicate 257 eightLetters) i ∧
      ends (List.replicate 257 eightLetters) i ≤ capacity 8192 (8 : ℕ+) 1) := by
    intro i
    rw [ends_replicate, hlen, hcap, hbefore]
    omega
  obtain ⟨fuel, r, hrun, hzero, hne⟩ := collect_dropped (8 : ℕ+) (by rw [hcap, hsize]; decide) hgap 1 0 0 0
    (.start 0 8192 (fun _ => 0) _) rfl (held_start 0 8192 _ _) (by rw [hlength]; decide)
    (by rw [ends_replicate, hlen]; decide)
  exact ⟨fuel, r, hrun, hzero, fun hc => hne hc.1⟩

end AufsUtil.Rdu
