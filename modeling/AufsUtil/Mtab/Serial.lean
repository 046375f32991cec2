/-
No update of /etc/mtab is lost, however the mount helpers are interleaved and whichever of their children die.

- `parent_step_inv`, `child_step_inv`: every step of every process keeps the invariant of `AufsUtil.Mtab.Ownership`.
- `mtab_serial`: in every state of every run MTab is the first table with the updates of the renames that have happened
  applied in their order; and whoever renames or unlinks MTab~ has linked it.
-/
import Mathlib.Tactic
import AufsUtil.Lib.Runs
import AufsUtil.Mtab.Ownership

namespace AufsUtil.Mtab

open AufsUtil.CStr AufsUtil.Runs

section Step

variable {T : Table} {s : Sys} {r : ℕ} (h : Inv T s)
include h

/-! ## Steps of the parent -/

/-- the parent goes on, before or after its unlink of MTab~.PID -/
theorem inv_parent {p : Parent} (hr : r < s.nruns) (hopened : p ≠ .opened)
    (hnamed : p.named = true → (s.runs r).parent.named = true) (hopen : p.isOpen = true → (s.runs r).parent.isOpen = true)
    (hsaved : ∀ n, p.saved = some n → n = s.num (file r)) (hreaped : p.hasReaped = true → (s.runs r).child = .gone)
    (hremoving : p = .removing → s.lock = some (file r, r)) : Inv T (s.put r { s.runs r with parent := p }) := by
  have hx := h.runs r hr
  refine inv_put h hr ⟨hx.pid, fun hp => hx.named (hnamed hp), fun hp => absurd hp hopened, hx.running, hx.apart, hx.holds,
    hx.content, hsaved, hreaped, hremoving⟩ ?_ id
  intro hk
  simp only [Run.keeps, Bool.or_eq_true] at hk ⊢
  exact hk.imp id hopen

theorem inv_fork (hp : (s.runs r).parent = .opened) :
    Inv T (s.put r { s.runs r with parent := .forked, child := .locking 5 }) := by
  have hr : r < s.nruns := run_begun h hp nofun
  have hx := h.runs r hr
  have hlinked : (s.runs r).pid_linked = true := hx.named (by rw [hp]; rfl)
  have hchild := hx.opened hp
  have hbefore : (s.runs r).child.before = true := by rw [hchild]; rfl
  have hout : s.data (file r) = [] := by
    have hc := hx.content
    rw [hchild] at hc
    exact hc
  refine inv_put h hr ⟨hx.pid, fun _ => hlinked, nofun, fun _ => hlinked, fun _ => hx.apart hbefore, nofun, hout, nofun,
    nofun, nofun⟩ ?_ fun _ => hbefore
  intro _
  rw [Run.keeps, hlinked]
  rfl

omit h in
theorem any_some {l : Option (ℕ × ℕ)} {p : ℕ × ℕ → Prop} [DecidablePred p] (h : l.any (fun a => decide (p a)) = true) :
    ∃ a, l = some a ∧ p a := by
  cases l with
  | none => cases h
  | some a => exact ⟨a, rfl, of_decide_eq_true h⟩

/-- stat finds the number of its own file only on its own file, which is live as long as the parent has it open -/
theorem lock_of_num {n : ℕ × ℕ} {l : ℕ × ℕ} (hp : (s.runs r).parent = .unlinked n) (hl : s.lock = some l)
    (hn : s.num l.1 = n) : s.lock = some (file r, r) := by
  have hr : r < s.nruns := run_begun h hp nofun
  have hown : n = s.num (file r) := (h.runs r hr).saved n (by rw [hp]; rfl)
  have hopen : (s.runs r).keeps = true := by simp [Run.keeps, hp, Parent.isOpen]
  have hi : l.1 = file r :=
    h.nums l.1 (file r) (Or.inr (Or.inl ⟨l.2, hl⟩)) (Or.inr (Or.inr ⟨r, hr, rfl, hopen⟩)) (hn.trans hown)
  obtain ⟨-, hf, -⟩ := h.lock l.1 l.2 hl
  have hrun : l.2 = r := file_inj.1 (hf.symm.trans hi)
  rw [hl, ← hi, ← hrun]

theorem inv_unlink_pid {n : ℕ × ℕ} (hp : (s.runs r).parent = .reaped n) :
    Inv T ({ s with pidf := Function.update s.pidf (s.runs r).pid none }.put r
      { s.runs r with parent := .unlinked n, pid_linked := false }) := by
  have hr : r < s.nruns := run_begun h hp nofun
  have hx := h.runs r hr
  have hgone : (s.runs r).child = .gone := hx.reaped (by rw [hp]; rfl)
  have hpid : s.pidf (s.runs r).pid = some (file r) := hx.pid (hx.named (by rw [hp]; rfl))
  refine inv_of h rfl hr rfl rfl ⟨nofun, nofun, nofun, ?_, hx.apart, hx.holds, hx.content, ?_, fun _ => hgone, nofun⟩ ?_
    h.table h.lock h.mtab ?_ (once_put h.once rfl rfl rfl id)
  · intro hrun
    rw [hgone] at hrun
    cases hrun
  · intro m hm
    exact hx.saved m (by rw [hp]; exact hm)
  · intro r' hr' hne
    have hy := h.runs r' hr'
    refine hy.frame ?_ hy.apart (fun hl => ⟨hl, rfl, rfl⟩) rfl rfl
    -- a name leads to one inode: another run that still has its name has another one
    intro hlinked
    have hother : (s.runs r').pid ≠ (s.runs r).pid := by
      intro he
      have hf := hy.pid hlinked
      rw [he, hpid, Option.some.injEq, file_inj] at hf
      exact hne hf.symm
    simp only [Sys.put, Function.update_of_ne hother]
    exact hy.pid hlinked
  · intro i hi
    refine live_put hi rfl rfl ?_ (Or.inl rfl) (fun i r' hl => Or.inr (Or.inl ⟨r', hl⟩))
    intro _
    simp [Run.keeps, hp, Parent.isOpen]

theorem inv_unlink_lock (hp : (s.runs r).parent = .removing) :
    Inv T ({ s with lock := none }.put r { s.runs r with parent := .closing }) := by
  have hr : r < s.nruns := run_begun h hp nofun
  have hx := h.runs r hr
  have hgone : (s.runs r).child = .gone := hx.reaped (by rw [hp]; rfl)
  have hlock := hx.removing hp
  refine inv_of h rfl hr rfl rfl ⟨hx.pid, nofun, nofun, hx.running, hx.apart, ?_, hx.content, nofun, fun _ => hgone, nofun⟩
    ?_ h.table nofun h.mtab ?_ (once_put h.once rfl rfl rfl id)
  · intro hh
    rw [hgone] at hh
    cases hh
  · intro r' hr' hne
    have hy := h.runs r' hr'
    exact hy.frame hy.pid hy.apart (fun hl => absurd (lock_owner hlock hl) hne) rfl rfl
  · intro i hi
    refine live_put hi rfl rfl ?_ (Or.inl rfl) nofun
    intro _
    simp [Run.keeps, hp, Parent.isOpen]

theorem live_le {i : ℕ} (hi : Live s i) : i ≤ s.nruns := by
  rcases hi with rfl | ⟨r', hl⟩ | ⟨r', hr', rfl, -⟩
  · exact h.mtab
  · obtain ⟨hr', rfl, -⟩ := h.lock i r' hl
    exact hr'
  · exact hr'

theorem nums_begin {job : Job} {pid : ℕ} {n : ℕ × ℕ} (hn : s.Unused n) {i j : ℕ} (hi : Live (s.begin job pid n) i)
    (hj : Live (s.begin job pid n) j) (he : (s.begin job pid n).num i = (s.begin job pid n).num j) : i = j := by
  have hsame : ∀ {i : ℕ}, Live s i → (s.begin job pid n).num i = s.num i := by
    intro i hi
    exact begin_num_old (file_new (live_le h hi))
  rcases live_begin hi with rfl | hi' <;> rcases live_begin hj with rfl | hj'
  · rfl
  · rw [begin_num, hsame hj'] at he
    exact absurd he.symm (unused_live hn hj')
  · rw [begin_num, hsame hi'] at he
    exact absurd he (unused_live hn hi')
  · rw [hsame hi', hsame hj'] at he
    exact h.nums i j hi' hj' he

theorem inv_openx {job : Job} {pid : ℕ} {n : ℕ × ℕ} (hpid : s.pidf pid = none) (hn : s.Unused n) :
    Inv T (s.begin job pid n) := by
  have htable : (s.begin job pid n).data s.mtab = s.data s.mtab := begin_data_old (file_new h.mtab)
  refine ⟨htable.trans h.table, ?_, ?_, Nat.le_succ_of_le h.mtab, fun i j => nums_begin h hn, ?_, h.once.nodup, ?_⟩
  · intro r' hr'
    by_cases he : r' = s.nruns
    · subst he
      rw [begin_run]
      exact ⟨fun _ => begin_pidf, fun _ => rfl, fun _ => rfl, nofun, fun _ => file_new h.mtab, nofun, begin_data, nofun,
        nofun, nofun⟩
    · have hlt : r' < s.nruns := Nat.lt_of_le_of_ne (Nat.le_of_lt_succ hr') he
      have hy := h.runs r' hlt
      rw [begin_run_old he]
      refine hy.frame ?_ hy.apart (fun hl => ⟨hl, rfl, htable⟩) (begin_num_old (file_new hlt))
        (begin_data_old (file_new hlt))
      intro hlinked
      have hf := hy.pid hlinked
      rw [begin_pidf_old, hf]
      rintro rfl
      rw [hpid] at hf
      cases hf
  · intro i r' hl
    obtain ⟨hr', hf⟩ := h.lock i r' hl
    exact ⟨Nat.lt_succ_of_lt hr', hf⟩
  · intro r' hr'
    have hle : s.nruns + 1 ≤ r' := hr'
    rw [begin_run_old (by omega)]
    exact h.idle r' (by omega)
  · intro p hp
    obtain ⟨hlt, hb⟩ := h.once.past p hp
    refine ⟨Nat.lt_succ_of_lt hlt, ?_⟩
    rw [begin_run_old (by omega)]
    exact hb

/-! ## Steps of the child -/

/-- a child that has not renamed goes on and writes to its file -/
theorem inv_child {c : Child} (out : Table) (hrun : (s.runs r).child.running = true)
    (hbefore : (s.runs r).child.before = true) (hholds : c.holds = true → (s.runs r).child.holds = true)
    (hc : Content (s.runs r).job s.mtab (s.data s.mtab) out c) :
    Inv T ((s.write r out).put r { s.runs r with child := c }) := by
  have hr : r < s.nruns := child_begun h hrun
  have hx := h.runs r hr
  have hapart := hx.apart hbefore
  obtain ⟨hopened, hreaped⟩ := hx.busy hrun
  refine inv_write h out hr ⟨hx.pid, hx.named, fun hp => absurd hp hopened, fun _ => hx.running hrun, fun _ => hapart,
    fun hh => hx.holds (hholds hh), ?_, hx.saved, fun hp => absurd hp hreaped, hx.removing⟩ (Or.inr hapart) id
    fun _ => hbefore
  rw [write_file]
  change Content _ s.mtab ((s.write r out).data s.mtab) out c
  rw [write_other hapart]
  exact hc

/-- .. or only goes on -/
theorem inv_child_put {c : Child} (hrun : (s.runs r).child.running = true) (hbefore : (s.runs r).child.before = true)
    (hholds : c.holds = true → (s.runs r).child.holds = true)
    (hc : Content (s.runs r).job s.mtab (s.data s.mtab) (s.data (file r)) c) :
    Inv T (s.put r { s.runs r with child := c }) := by
  have hw := inv_child h (s.data (file r)) hrun hbefore hholds hc
  rwa [write_self] at hw

/-- a child that ends without writing -/
theorem inv_gone (hrun : (s.runs r).child.running = true) : Inv T (s.put r { s.runs r with child := .gone }) := by
  have hr : r < s.nruns := child_begun h hrun
  have hx := h.runs r hr
  obtain ⟨hopened, -⟩ := hx.busy hrun
  exact inv_put h hr ⟨hx.pid, hx.named, fun hp => absurd hp hopened, nofun, nofun, nofun, trivial, hx.saved, fun _ => rfl,
    hx.removing⟩ id nofun

theorem inv_link {n i : ℕ} (hc : (s.runs r).child = .locking n) (hpid : s.pidf (s.runs r).pid = some i)
    (hl : s.lock = none) : Inv T ({ s with lock := some (i, r) }.put r { s.runs r with child := .locked }) := by
  have hrun : (s.runs r).child.running = true := by rw [hc]; rfl
  have hr : r < s.nruns := child_begun h hrun
  have hx := h.runs r hr
  obtain ⟨hopened, hreaped⟩ := hx.busy hrun
  have hapart := hx.apart (by rw [hc]; rfl)
  have hout : s.data (file r) = [] := by
    have hcont := hx.content
    rw [hc] at hcont
    exact hcont
  have hlinked := hx.running hrun
  have hi : i = file r := by
    rw [hx.pid hlinked, Option.some.injEq] at hpid
    exact hpid.symm
  subst hi
  refine inv_of h rfl hr rfl rfl ⟨hx.pid, hx.named, fun hp => absurd hp hopened, fun _ => hlinked, fun _ => hapart,
    fun _ => rfl, hout, hx.saved, fun hp => absurd hp hreaped, fun _ => rfl⟩ ?_ h.table ?_ h.mtab ?_
    (once_put h.once rfl rfl rfl fun _ => by rw [hc]; rfl)
  · intro r' hr' _
    have hy := h.runs r' hr'
    refine hy.frame hy.pid hy.apart ?_ rfl rfl
    intro hl'
    exact absurd (hl.symm.trans hl') nofun
  · intro i r' he
    simp only [Sys.put, Option.some.injEq, Prod.mk.injEq] at he
    obtain ⟨rfl, rfl⟩ := he
    exact ⟨hr, rfl, hapart⟩
  · intro i hi'
    refine live_put hi' rfl rfl id (Or.inl rfl) ?_
    -- the inode of MTab~ has the name MTab~.PID
    intro i r' he
    simp only [Sys.put, Option.some.injEq, Prod.mk.injEq] at he
    exact Or.inr (Or.inr ⟨r, hr, he.1.symm, by rw [Run.keeps, hlinked]; rfl⟩)

theorem once_rename {u : Update} {x : Run} (hr : r < s.nruns) (hbefore : (s.runs r).child.before = true)
    (hx : x.child.before = false) {t : Sys} (hren : t.renames = s.renames ++ [(r, u)])
    (hruns : t.runs = Function.update s.runs r x) (hn : t.nruns = s.nruns) : Once t := by
  have hnew : ∀ p ∈ s.renames, p.1 ≠ r := by
    intro p hp he
    have hb := (h.once.past p hp).2
    rw [he, hbefore] at hb
    cases hb
  constructor
  · rw [hren, List.map_append, List.nodup_append]
    refine ⟨h.once.nodup, List.nodup_singleton _, ?_⟩
    intro a ha b hb
    obtain ⟨p, hp, rfl⟩ := List.mem_map.1 ha
    rw [List.mem_singleton.1 hb]
    exact hnew p hp
  · intro p hp
    rw [hren, List.mem_append, List.mem_singleton] at hp
    rw [hn, hruns]
    rcases hp with hp | rfl
    · rw [Function.update_of_ne (hnew p hp)]
      exact h.once.past p hp
    · rw [Function.update_self]
      exact ⟨hr, hx⟩

/-- the rename: MTab is now the file that the child has written -/
theorem inv_rename {ent : Mntent} (hc : (s.runs r).child = .written ent) :
    Inv T ({ s with mtab := file r, lock := none, renames := s.renames ++ [(r, Update.mk (s.runs r).job ent)] }.put r
      { s.runs r with child := .renamed }) := by
  have hrun : (s.runs r).child.running = true := by rw [hc]; rfl
  have hr : r < s.nruns := child_begun h hrun
  have hx := h.runs r hr
  obtain ⟨hopened, hreaped⟩ := hx.busy hrun
  have hlock := hx.holds (by rw [hc]; rfl)
  have hremoving : (s.runs r).parent ≠ .removing := by
    intro hp
    rw [hp] at hreaped
    exact hreaped rfl
  have hout : s.data (file r) = Update.apply ⟨(s.runs r).job, ent⟩ (s.data s.mtab) := by
    have hcont := hx.content
    rw [hc] at hcont
    exact hcont
  refine inv_of h rfl hr rfl rfl ⟨hx.pid, hx.named, fun hp => absurd hp hopened, fun _ => hx.running hrun, nofun, nofun,
    trivial, hx.saved, fun hp => absurd hp hreaped, fun hp => absurd hp hremoving⟩ ?_ ?_ nofun hr ?_
    (once_rename h hr (by rw [hc]; rfl) rfl rfl rfl rfl)
  · intro r' hr' hne
    have hy := h.runs r' hr'
    exact hy.frame hy.pid (fun _ he => hne (file_inj.1 he).symm) (fun hl => absurd (lock_owner hlock hl) hne) rfl rfl
  · calc s.data (file r)
        = Update.apply ⟨(s.runs r).job, ent⟩ (s.data s.mtab) := hout
      _ = (s.renames ++ [(r, Update.mk (s.runs r).job ent)]).foldl (fun T (u : ℕ × Update) => u.2.apply T) T := by
          rw [h.table, List.foldl_append, List.foldl_cons, List.foldl_nil]
  · intro i hi
    exact live_put hi rfl rfl id (Or.inr (Or.inl ⟨r, hlock⟩)) nofun

theorem child_content {c : Child} (hc : (s.runs r).child = c) (hrun : c.running = true) :
    Content (s.runs r).job s.mtab (s.data s.mtab) (s.data (file r)) c := by
  have hr : r < s.nruns := child_begun h (by rw [hc]; exact hrun)
  exact hc ▸ (h.runs r hr).content

/-- a child that has the lock goes on and writes to its file -/
theorem inv_holding {c : Child} (out : Table) (hh : (s.runs r).child.holds = true)
    (hc : Content (s.runs r).job s.mtab (s.data s.mtab) out c) :
    Inv T ((s.write r out).put r { s.runs r with child := c }) := by
  have hrun : (s.runs r).child.running = true ∧ (s.runs r).child.before = true := by
    cases hch : (s.runs r).child <;> rw [hch] at hh <;> first | exact ⟨rfl, rfl⟩ | cases hh
  exact inv_child h out hrun.1 hrun.2 (fun _ => hh) hc

theorem inv_holding_put {c : Child} (hh : (s.runs r).child.holds = true)
    (hc : Content (s.runs r).job s.mtab (s.data s.mtab) (s.data (file r)) c) :
    Inv T (s.put r { s.runs r with child := c }) := by
  have hw := inv_holding h (s.data (file r)) hh hc
  rwa [write_self] at hw

theorem copy_turn_inv {t : Sys} (ht : copy_turn s r (s.runs r) = some t) : Inv T t := by
  unfold copy_turn at ht
  split at ht
  case h_1 ent j i pos hc =>
    have hh : (s.runs r).child.holds = true := by rw [hc]; rfl
    have hcont := child_content h hc rfl
    obtain rfl : j = s.mtab := hcont.1
    split at ht
    case h_1 p hp =>
      cases ht
      exact inv_holding_put h hh (scan_next hcont hp)
    case h_2 hp =>
      cases pos with
      | some k =>
        cases ht
        exact inv_holding_put h hh (scan_found hcont hp)
      | none =>
        cases ht
        exact inv_holding_put h hh (scan_missed hcont hp)
  case h_2 ent j i pos hc =>
    have hh : (s.runs r).child.holds = true := by rw [hc]; rfl
    have hcont := child_content h hc rfl
    obtain rfl : j = s.mtab := hcont.1
    split at ht
    case h_1 p hp =>
      split_ifs at ht with hpos
      · cases ht
        subst hpos
        exact inv_holding h _ hh (replace_at hcont hp)
      · cases ht
        exact inv_holding h _ hh (replace_next hcont hp hpos)
    case h_2 hp =>
      obtain ⟨rfl, hend⟩ := replace_end hcont hp
      cases ht
      exact inv_holding_put h hh hend
  case h_3 ent j i hc =>
    have hh : (s.runs r).child.holds = true := by rw [hc]; rfl
    have hcont := child_content h hc rfl
    obtain rfl : j = s.mtab := hcont.1
    split at ht
    case h_1 p hp =>
      cases ht
      exact inv_holding h _ hh (append_next hcont hp)
    case h_2 hp =>
      cases ht
      exact inv_holding h _ hh (append_end hcont hp)
  case h_4 => cases ht

theorem link_inv {ok : Bool} {t : Sys} (ht : child_step s r (s.runs r) (.link ok) = some t) : Inv T t := by
  simp only [child_step] at ht
  split at ht
  case h_1 n hc =>
    split at ht
    case h_1 i hpid hl =>
      cases ht
      exact inv_link h hc hpid hl
    case h_2 =>
      cases ht
      have hrun : (s.runs r).child.running = true := by rw [hc]; rfl
      split_ifs
      · exact inv_gone h hrun
      · have hout : s.data (file r) = [] := child_content h hc rfl
        exact inv_child_put h hrun (by rw [hc]; rfl) nofun hout
  case h_2 => cases ht

theorem rename_inv {ok : Bool} {t : Sys} (ht : child_step s r (s.runs r) (.rename ok) = some t) : Inv T t := by
  simp only [child_step] at ht
  split at ht
  case h_1 ent hc =>
    have hr : r < s.nruns := child_begun h (by rw [hc]; rfl)
    have hlock := (h.runs r hr).holds (by rw [hc]; rfl)
    obtain ⟨-, -, hapart⟩ := h.lock _ _ hlock
    rw [hlock] at ht
    cases ok with
    | true =>
      simp only [if_neg hapart.symm, Option.some.injEq] at ht
      subst ht
      exact inv_rename h hc
    | false =>
      cases ht
      exact inv_gone h (by rw [hc]; rfl)
  case h_2 => cases ht

theorem child_step_inv {ev : Ev} {t : Sys} (ht : child_step s r (s.runs r) ev = some t) : Inv T t := by
  cases ev with
  | link ok => exact link_inv h ht
  | rename ok => exact rename_inv h ht
  | getmntent => exact copy_turn_inv h ht
  | proc_getmntent ent =>
    simp only [child_step] at ht
    split_ifs at ht with hc
    cases ht
    have hout : s.data (file r) = [] := child_content h hc rfl
    exact inv_holding_put h (by rw [hc]; rfl) hout
  | setmntent =>
    simp only [child_step] at ht
    split at ht
    case h_1 ent hc =>
      cases ht
      have hout : s.data (file r) = [] := child_content h hc rfl
      refine inv_holding_put h (by rw [hc]; rfl) ?_
      split_ifs with hre
      · exact ⟨rfl, hout, hre, rfl⟩
      · exact ⟨rfl, fun he => absurd he hre, hout⟩
    case h_2 => cases ht
  | exit =>
    simp only [child_step] at ht
    split_ifs at ht with hc
    cases ht
    exact inv_gone h (by rw [hc]; rfl)
  | die junk =>
    simp only [child_step] at ht
    split_ifs at ht with hrun hbefore
    · cases ht
      exact inv_child h junk hrun hbefore nofun trivial
    · cases ht
      exact inv_gone h hrun
  | _ => cases ht

theorem parent_step_inv {ev : Ev} {t : Sys} (ht : parent_step s r (s.runs r) ev = some t) : Inv T t := by
  cases ev with
  | openx job pid n =>
    simp only [parent_step] at ht
    split_ifs at ht with hc
    obtain ⟨rfl, hpid, hn⟩ := hc
    cases ht
    exact inv_openx h hpid hn
  | fork =>
    simp only [parent_step] at ht
    split_ifs at ht with hp
    cases ht
    exact inv_fork h hp
  | fstat =>
    simp only [parent_step] at ht
    split_ifs at ht with hp
    cases ht
    have hr : r < s.nruns := run_begun h hp nofun
    refine inv_parent h hr nofun (fun _ => by rw [hp]; rfl) (fun _ => by rw [hp]; rfl) ?_ nofun nofun
    intro n hn
    exact (Option.some.inj hn).symm
  | waitpid ok =>
    simp only [parent_step] at ht
    split at ht
    case h_1 n hp =>
      have hr : r < s.nruns := run_begun h hp nofun
      split_ifs at ht with hok hgone
      · cases ht
        exact inv_parent h hr nofun nofun nofun nofun nofun nofun
      · cases ht
        refine inv_parent h hr nofun (fun _ => by rw [hp]; rfl) (fun _ => by rw [hp]; rfl) ?_ (fun _ => hgone) nofun
        intro m hm
        exact (h.runs r hr).saved m (by rw [hp]; exact hm)
    case h_2 => cases ht
  | unlink_pid ok =>
    simp only [parent_step] at ht
    split at ht
    case h_1 n hp =>
      split_ifs at ht with hok
      · cases ht
        exact inv_unlink_pid h hp
      · cases ht
        have hr : r < s.nruns := run_begun h hp nofun
        have hgone := (h.runs r hr).reaped (by rw [hp]; rfl)
        refine inv_parent h hr nofun nofun (fun _ => by rw [hp]; rfl) ?_ (fun _ => hgone) nofun
        intro m hm
        exact (h.runs r hr).saved m (by rw [hp]; exact hm)
    case h_2 => cases ht
  | stat_lock ok =>
    simp only [parent_step] at ht
    split at ht
    case h_1 n hp =>
      cases ht
      have hr : r < s.nruns := run_begun h hp nofun
      have hgone := (h.runs r hr).reaped (by rw [hp]; rfl)
      have hopen : (s.runs r).parent.isOpen = true := by rw [hp]; rfl
      split_ifs with hsame
      · obtain ⟨l, hl, hn⟩ := any_some (Bool.and_eq_true_iff.1 hsame).2
        exact inv_parent h hr nofun nofun (fun _ => hopen) nofun (fun _ => hgone) fun _ => lock_of_num h hp hl hn
      · exact inv_parent h hr nofun nofun (fun _ => hopen) nofun (fun _ => hgone) nofun
    case h_2 => cases ht
  | unlink_lock ok =>
    simp only [parent_step] at ht
    split_ifs at ht with hp hok
    · cases ht
      exact inv_unlink_lock h hp
    · cases ht
      have hr : r < s.nruns := run_begun h hp nofun
      have hgone := (h.runs r hr).reaped (by rw [hp]; rfl)
      exact inv_parent h hr nofun nofun (fun _ => by rw [hp]; rfl) nofun (fun _ => hgone) nofun
  | fclose =>
    simp only [parent_step] at ht
    split_ifs at ht with hp
    cases ht
    have hr : r < s.nruns := run_begun h hp nofun
    exact inv_parent h hr nofun nofun nofun nofun nofun nofun
  | kill =>
    simp only [parent_step] at ht
    split_ifs at ht with hp
    cases ht
    have hr : r < s.nruns := by
      refine run_begun h rfl ?_
      intro hd
      rw [hd] at hp
      exact Bool.false_ne_true hp
    exact inv_parent h hr nofun nofun nofun nofun nofun nofun
  | _ => cases ht

end Step

/-- every step of every process keeps the invariant -/
theorem step_inv {T : Table} (s : Sys) (a : ℕ × Ev) (t : Sys) (h : Inv T s) (ht : step s a = some t) : Inv T t := by
  unfold step at ht
  split at ht <;> first | exact parent_step_inv h ht | exact child_step_inv h ht

/-! ## Runs -/

/-- a rename or an unlink of MTab~ -/
def Ev.takes_lock : Ev → Bool
  | .rename _ | .unlink_lock _ => true
  | _ => false

/-- whoever renames or unlinks MTab~ has linked it -/
def OwnLock (s : Sys) (a : ℕ × Ev) : Prop :=
  a.2.takes_lock = true → ∀ i r, s.lock = some (i, r) → r = a.1

theorem step_own_lock {T : Table} (s : Sys) (a : ℕ × Ev) (t : Sys) (h : Inv T s) (ht : step s a = some t) :
    OwnLock s a := by
  obtain ⟨r, ev⟩ := a
  intro htakes i r' hl
  cases ev with
  | rename ok =>
    simp only [step, child_step] at ht
    split at ht
    case h_1 ent hc =>
      have hr : r < s.nruns := child_begun h (by rw [hc]; rfl)
      exact lock_owner ((h.runs r hr).holds (by rw [hc]; rfl)) hl
    case h_2 => cases ht
  | unlink_lock ok =>
    simp only [step, parent_step] at ht
    split_ifs at ht with hp
    all_goals
      have hr : r < s.nruns := run_begun h hp nofun
      exact lock_owner ((h.runs r hr).removing hp) hl
  | _ => cases htakes

/-- **No update of /etc/mtab is lost.** However any number of runs are interleaved and whichever processes die, MTab is
the first table with the updates of the runs whose rename has happened, each once and in the order of the renames; and
no process renames or unlinks an MTab~ that another run has linked. -/
theorem mtab_serial (T : Table) (num : ℕ × ℕ) (acts : List (ℕ × Ev)) (s : Sys)
    (h : exec step (init T num) acts = some s) :
    s.data s.mtab = s.renames.foldl (fun T u => u.2.apply T) T ∧ (s.renames.map Prod.fst).Nodup ∧
      Along step OwnLock (init T num) acts := by
  have hinv : Inv T s := exec_invariant step (Inv T) step_inv (inv_init T num) h
  refine ⟨hinv.table, hinv.once.nodup, ?_⟩
  exact along_of_step step (Inv T) OwnLock step_inv step_own_lock (inv_init T num) h

/-- the entry of / with its options -/
def root_ent (opts : Bytes) : Mntent := ⟨[114], [47], [120], opts, 0, 0⟩

def u_ent : Mntent := ⟨[117], [47, 117], [97], [114, 119], 0, 0⟩

/-- three runs: the first child dies with the lock, and its parent removes it; the second replaces the entry of /; the
third gets the pid and the inode number of the first -/
def three_runs : List (ℕ × Ev) :=
  let add : Job := ⟨[47, 117], false⟩
  let remount : Job := ⟨[47], true⟩
  [(0, .openx add 100 (8, 2)), (1, .openx remount 101 (8, 3)), (0, .fork), (0, .fstat), (1, .fork), (1, .fstat),
    (0, .link true), (1, .link true), (0, .die [u_ent]), (1, .link true), (0, .waitpid true), (0, .unlink_pid true),
    (0, .stat_lock true), (0, .unlink_lock true), (0, .fclose), (2, .openx add 100 (8, 2)), (2, .fork), (1, .link true),
    (2, .fstat), (2, .link true), (1, .proc_getmntent (root_ent [119])), (1, .setmntent), (1, .getmntent), (1, .getmntent),
    (1, .getmntent), (1, .getmntent), (1, .rename true), (2, .link true), (1, .exit), (1, .waitpid true),
    (1, .unlink_pid true), (1, .stat_lock true), (2, .proc_getmntent u_ent), (2, .setmntent), (2, .getmntent), (1, .fclose),
    (2, .getmntent), (2, .rename true)]

theorem mtab_serial_three : ∃ s, exec step (init [root_ent [114]] (8, 1)) three_runs = some s ∧
    s.renames.map Prod.fst = [1, 2] ∧ s.data s.mtab = [root_ent [119], u_ent] := by
  have hrun : (exec step (init [root_ent [114]] (8, 1)) three_runs).map (·.renames) =
      some [(1, ⟨⟨[47], true⟩, root_ent [119]⟩), (2, ⟨⟨[47, 117], false⟩, u_ent⟩)] := by
    decide +kernel
  obtain ⟨s, hs, hren⟩ := Option.map_eq_some_iff.1 hrun
  refine ⟨s, hs, ?_, ?_⟩
  · rw [hren]
    rfl
  · rw [(mtab_serial _ _ _ s hs).1, hren]
    decide +kernel

end AufsUtil.Mtab
