/-
Who owns what while mount helpers update /etc/mtab.

The invariant (`Inv`): MTab~ is the file of the run that linked it, and stays so until that run renames or unlinks it;
MTab~.PID is the file of its run until that run unlinks it; the file of a run is not MTab before its rename, so that a
child writes only where nobody reads; and a child that holds the lock copies the table that MTab still has when it
renames (`Content`).

- `scan_next` .. `append_end`: one turn of a copying loop keeps what is known of the copy.
- `RunInv.frame`: what is said of a run stays true as long as the others leave its names and its file alone.
- `inv_of`, `inv_write`, `inv_put`: a step of one run keeps the invariant if it keeps it for this run.
-/
import Mathlib.Tactic
import AufsUtil.Mtab.Machine

namespace AufsUtil.Mtab

open AufsUtil.CStr

/-! ## Copying a table -/

theorem last_index_lt {m : Bytes} {T : Table} {k : ℕ} (h : last_index m T = some k) : k < T.length := by
  induction T generalizing k with
  | nil => simp [last_index] at h
  | cons p T ih =>
    rw [last_index] at h
    cases hT : last_index m T with
    | some k' =>
      rw [hT, Option.some.injEq] at h
      have := ih hT
      rw [List.length_cons]
      omega
    | none =>
      rw [hT] at h
      simp only at h
      split_ifs at h
      rw [Option.some.injEq] at h
      rw [List.length_cons]
      omega

/-- the first pass: one more entry -/
theorem last_index_concat (m : Bytes) (T : Table) (p : Mntent) :
    last_index m (T ++ [p]) = if p.dir = m then some T.length else last_index m T := by
  induction T with
  | nil => simp [last_index]
  | cons q T ih =>
    rw [List.cons_append, last_index, ih, last_index]
    by_cases hp : p.dir = m
    · simp only [hp, if_true, List.length_cons]
    · simp only [hp, if_false]

theorem take_next {T : Table} {i : ℕ} {p : Mntent} (h : T[i]? = some p) : T.take (i + 1) = T.take i ++ [p] := by
  rw [List.take_add_one, h]
  rfl

theorem take_end {T : Table} {i : ℕ} (h : T[i]? = none) : T.take i = T :=
  List.take_of_length_le (List.getElem?_eq_none_iff.1 h)

/-! ## The invariant -/

/-- what the child has in its file and what it knows of the table T that MTab has -/
def Content (job : Job) (mtab : ℕ) (T out : Table) : Child → Prop
  | .none | .locking _ | .locked | .looked _ => out = []
  | .scanning _ j i pos => j = mtab ∧ out = [] ∧ job.do_remount = true ∧ pos = last_index job.mntpnt (T.take i)
  | .replacing ent j i pos => j = mtab ∧ job.do_remount = true ∧
      ∃ k, last_index job.mntpnt T = some k ∧ pos = (if i ≤ k then some k else none) ∧ out = (T.set k ent).take i
  | .appending _ j i => j = mtab ∧ (job.do_remount = true → last_index job.mntpnt T = none) ∧ out = T.take i
  | .written ent => out = Update.apply ⟨job, ent⟩ T
  | .renamed | .gone => True

/-- has not come to its unlink of MTab~.PID -/
def Parent.named : Parent → Bool
  | .opened | .forked | .waiting _ | .reaped _ => true
  | _ => false

structure RunInv (s : Sys) (r : ℕ) (x : Run) : Prop where
  pid : x.pid_linked = true → s.pidf x.pid = some (file r)
  named : x.parent.named = true → x.pid_linked = true
  opened : x.parent = .opened → x.child = .none
  running : x.child.running = true → x.pid_linked = true
  apart : x.child.before = true → s.mtab ≠ file r
  holds : x.child.holds = true → s.lock = some (file r, r)
  content : Content x.job s.mtab (s.data s.mtab) (s.data (file r)) x.child
  saved : ∀ n, x.parent.saved = some n → n = s.num (file r)
  reaped : x.parent.hasReaped = true → x.child = .gone
  removing : x.parent = .removing → s.lock = some (file r, r)

/-- an inode that has a name or is open in a parent -/
def Live (s : Sys) (i : ℕ) : Prop :=
  i = s.mtab ∨ (∃ r, s.lock = some (i, r)) ∨ ∃ r, r < s.nruns ∧ i = file r ∧ (s.runs r).keeps = true

/-- a run renames at most once -/
structure Once (s : Sys) : Prop where
  nodup : (s.renames.map Prod.fst).Nodup
  past : ∀ p ∈ s.renames, p.1 < s.nruns ∧ (s.runs p.1).child.before = false

structure Inv (T : Table) (s : Sys) : Prop where
  table : s.data s.mtab = s.renames.foldl (fun T u => u.2.apply T) T
  runs : ∀ r, r < s.nruns → RunInv s r (s.runs r)
  lock : ∀ i r, s.lock = some (i, r) → r < s.nruns ∧ i = file r ∧ s.mtab ≠ i
  mtab : s.mtab ≤ s.nruns
  nums : ∀ i j, Live s i → Live s j → s.num i = s.num j → i = j
  idle : ∀ r, s.nruns ≤ r → (s.runs r).parent = .dead ∧ (s.runs r).child = .gone
  once : Once s

theorem file_inj {r r' : ℕ} : file r = file r' ↔ r = r' := by
  unfold file
  omega

theorem inv_init (T : Table) (num : ℕ × ℕ) : Inv T (init T num) := by
  refine ⟨rfl, ?_, ?_, le_rfl, ?_, fun _ _ => ⟨rfl, rfl⟩, ⟨List.nodup_nil, fun p hp => absurd hp List.not_mem_nil⟩⟩
  · intro r hr
    exact absurd hr (Nat.not_lt_zero r)
  · intro i r h
    cases h
  · have hlive : ∀ i, Live (init T num) i → i = 0 := by
      rintro i (h | ⟨r, h⟩ | ⟨r, h, -⟩)
      · exact h
      · cases h
      · exact absurd h (Nat.not_lt_zero r)
    intro i j hi hj _
    rw [hlive i hi, hlive j hj]

/-- another run is not disturbed as long as its names and files are left alone, and the table too
while it has the lock -/
theorem RunInv.frame {s t : Sys} {r : ℕ} {x : Run} (h : RunInv s r x)
    (hpid : x.pid_linked = true → t.pidf x.pid = some (file r)) (hmtab : x.child.before = true → t.mtab ≠ file r)
    (hlock : s.lock = some (file r, r) →
      t.lock = some (file r, r) ∧ t.mtab = s.mtab ∧ t.data t.mtab = s.data s.mtab)
    (hnum : t.num (file r) = s.num (file r)) (hdata : t.data (file r) = s.data (file r)) : RunInv t r x := by
  refine ⟨hpid, h.named, h.opened, h.running, hmtab, fun hh => (hlock (h.holds hh)).1, ?_,
    fun n hn => (h.saved n hn).trans hnum.symm, h.reaped, fun hr => (hlock (h.removing hr)).1⟩
  have hc := h.content
  by_cases hh : x.child.holds = true
  · obtain ⟨-, hm, hd⟩ := hlock (h.holds hh)
    rw [hm, ← hm, hd, hdata, hm]
    exact hc
  · rw [hdata]
    cases hch : x.child <;> rw [hch] at hh hc <;> first | exact hc | simp [Child.holds] at hh

/-! ## One turn of the copying loops -/

section Copy

variable {job : Job} {m i : ℕ} {T out : Table} {ent p : Mntent} {pos : Option ℕ}

/-- the first pass over MTab of a remount -/
theorem scan_next (h : Content job m T out (.scanning ent m i pos)) (hp : T[i]? = some p) :
    Content job m T out (.scanning ent m (i + 1) (if p.dir = job.mntpnt then some i else pos)) := by
  obtain ⟨hj, hout, hre, hpos⟩ := h
  refine ⟨hj, hout, hre, ?_⟩
  have hi : i < T.length := (List.getElem?_eq_some_iff.1 hp).1
  rw [take_next hp, last_index_concat, List.length_take, Nat.min_eq_left (Nat.le_of_lt hi), hpos]

theorem scan_found {k : ℕ} (h : Content job m T out (.scanning ent m i (some k))) (hp : T[i]? = none) :
    Content job m T out (.replacing ent m 0 (some k)) := by
  obtain ⟨hj, hout, hre, hpos⟩ := h
  rw [take_end hp] at hpos
  refine ⟨hj, hre, k, hpos.symm, ?_, ?_⟩
  · rw [if_pos (Nat.zero_le k)]
  · rw [hout, List.take_zero]

theorem scan_missed (h : Content job m T out (.scanning ent m i none)) (hp : T[i]? = none) :
    Content job m T out (.appending ent m 0) := by
  obtain ⟨hj, hout, hre, hpos⟩ := h
  rw [take_end hp] at hpos
  refine ⟨hj, fun _ => hpos.symm, ?_⟩
  rw [hout, List.take_zero]

/-- the second pass: the entry at the position is replaced -/
theorem replace_at (h : Content job m T out (.replacing ent m i (some i))) (hp : T[i]? = some p) :
    Content job m T (out ++ [ent]) (.replacing ent m (i + 1) none) := by
  obtain ⟨hj, hre, k, hk, hpos, hout⟩ := h
  have hik : i = k := by
    split_ifs at hpos
    exact Option.some.inj hpos
  subst hik
  have hset : (T.set i ent)[i]? = some ent := List.getElem?_set_self (List.getElem?_eq_some_iff.1 hp).1
  refine ⟨hj, hre, i, hk, ?_, ?_⟩
  · rw [if_neg (Nat.not_succ_le_self i)]
  · rw [hout, take_next hset]

theorem replace_next (h : Content job m T out (.replacing ent m i pos)) (hp : T[i]? = some p) (hne : pos ≠ some i) :
    Content job m T (out ++ [p]) (.replacing ent m (i + 1) pos) := by
  obtain ⟨hj, hre, k, hk, hpos, hout⟩ := h
  have hik : i ≠ k := by
    rintro rfl
    rw [if_pos le_rfl] at hpos
    exact hne hpos
  have hset : (T.set k ent)[i]? = some p := by rw [List.getElem?_set_ne hik.symm, hp]
  refine ⟨hj, hre, k, hk, ?_, ?_⟩
  · rw [hpos]
    split_ifs <;> first | rfl | omega
  · rw [hout, take_next hset]

/-- the position is one of an entry, so it is met before the end -/
theorem replace_end (h : Content job m T out (.replacing ent m i pos)) (hp : T[i]? = none) :
    pos = none ∧ Content job m T out (.written ent) := by
  obtain ⟨-, hre, k, hk, hpos, hout⟩ := h
  have hi : T.length ≤ i := List.getElem?_eq_none_iff.1 hp
  have hlt := last_index_lt hk
  refine ⟨?_, ?_⟩
  · rw [hpos, if_neg (by omega)]
  · rw [Content, hout, List.take_of_length_le (by rw [List.length_set]; exact hi), Update.apply, if_pos hre, hk]

theorem append_next (h : Content job m T out (.appending ent m i)) (hp : T[i]? = some p) :
    Content job m T (out ++ [p]) (.appending ent m (i + 1)) := by
  obtain ⟨hj, hmiss, hout⟩ := h
  exact ⟨hj, hmiss, by rw [hout, take_next hp]⟩

theorem append_end (h : Content job m T out (.appending ent m i)) (hp : T[i]? = none) :
    Content job m T (out ++ [ent]) (.written ent) := by
  obtain ⟨-, hmiss, hout⟩ := h
  rw [take_end hp] at hout
  have hnone : (if job.do_remount then last_index job.mntpnt T else none) = none := by
    split_ifs with hre
    · exact hmiss hre
    · rfl
  rw [Content, hout, Update.apply, hnone]

end Copy

/-! ## What a step of one run leaves as it was -/

/-- while the child runs, the parent has forked and waits -/
theorem RunInv.busy {s : Sys} {r : ℕ} {x : Run} (h : RunInv s r x) (hrun : x.child.running = true) :
    x.parent ≠ .opened ∧ ¬ x.parent.hasReaped = true := by
  constructor
  · intro hp
    rw [h.opened hp] at hrun
    exact absurd hrun Bool.false_ne_true
  · intro hp
    rw [h.reaped hp] at hrun
    exact absurd hrun Bool.false_ne_true

/-- the lock has one owner -/
theorem lock_owner {s : Sys} {r r' i i' : ℕ} (h1 : s.lock = some (i, r)) (h2 : s.lock = some (i', r')) : r' = r := by
  rw [h1, Option.some.injEq, Prod.mk.injEq] at h2
  exact h2.2.symm

/-- what is live when MTab and MTab~ lead to inodes that were live, and the run keeps no more than before -/
theorem live_put {s t : Sys} {r i : ℕ} {x : Run} (hi : Live t i) (hruns : t.runs = Function.update s.runs r x)
    (hn : t.nruns = s.nruns) (hkeeps : x.keeps = true → (s.runs r).keeps = true) (hmtab : Live s t.mtab)
    (hlock : ∀ i r, t.lock = some (i, r) → Live s i) : Live s i := by
  rcases hi with rfl | ⟨r', hl⟩ | ⟨r', hr', hf, hk⟩
  · exact hmtab
  · exact hlock i r' hl
  · rw [hn] at hr'
    refine Or.inr (Or.inr ⟨r', hr', hf, ?_⟩)
    rw [hruns] at hk
    by_cases he : r' = r
    · subst he
      rw [Function.update_self] at hk
      exact hkeeps hk
    · rwa [Function.update_of_ne he] at hk

theorem once_put {s t : Sys} {r : ℕ} {x : Run} (h : Once s) (hren : t.renames = s.renames)
    (hruns : t.runs = Function.update s.runs r x) (hn : t.nruns = s.nruns)
    (hbefore : x.child.before = true → (s.runs r).child.before = true) : Once t := by
  refine ⟨hren ▸ h.nodup, ?_⟩
  intro p hp
  rw [hren] at hp
  obtain ⟨hlt, hb⟩ := h.past p hp
  refine ⟨hn ▸ hlt, ?_⟩
  rw [hruns]
  by_cases he : p.1 = r
  · rw [he] at hb ⊢
    rw [Function.update_self]
    by_contra hx
    rw [hbefore (by simpa using hx)] at hb
    cases hb
  · rw [Function.update_of_ne he]
    exact hb

theorem write_file (s : Sys) (r : ℕ) (out : Table) : (s.write r out).data (file r) = out := by
  simp only [Sys.write, Function.update_self]

theorem write_other {s : Sys} {r i : ℕ} (hne : i ≠ file r) (out : Table) : (s.write r out).data i = s.data i := by
  simp only [Sys.write, Function.update_of_ne hne]

theorem write_self (s : Sys) (r : ℕ) : s.write r (s.data (file r)) = s := by
  unfold Sys.write
  rw [Function.update_eq_self]

/-- the state after the open of a new run -/
def Sys.begin (s : Sys) (job : Job) (pid : ℕ) (num : ℕ × ℕ) : Sys :=
  { s with
    pidf := Function.update s.pidf pid (some (file s.nruns))
    data := Function.update s.data (file s.nruns) []
    num := Function.update s.num (file s.nruns) num
    nruns := s.nruns + 1
    runs := Function.update s.runs s.nruns ⟨job, pid, .opened, .none, true⟩ }

section Begin

variable {s : Sys} {job : Job} {pid : ℕ} {n : ℕ × ℕ} {i : ℕ}

theorem begin_pidf : (s.begin job pid n).pidf pid = some (file s.nruns) := by simp [Sys.begin]

theorem begin_pidf_old (hi : i ≠ pid) : (s.begin job pid n).pidf i = s.pidf i := by simp [Sys.begin, hi]

theorem begin_data : (s.begin job pid n).data (file s.nruns) = [] := by simp [Sys.begin]

theorem begin_data_old (hi : i ≠ file s.nruns) : (s.begin job pid n).data i = s.data i := by simp [Sys.begin, hi]

theorem begin_num : (s.begin job pid n).num (file s.nruns) = n := by simp [Sys.begin]

theorem begin_num_old (hi : i ≠ file s.nruns) : (s.begin job pid n).num i = s.num i := by simp [Sys.begin, hi]

theorem begin_run : (s.begin job pid n).runs s.nruns = ⟨job, pid, .opened, .none, true⟩ := by simp [Sys.begin]

theorem begin_run_old (hi : i ≠ s.nruns) : (s.begin job pid n).runs i = s.runs i := by simp [Sys.begin, hi]

/-- the file of the new run is new -/
theorem file_new (hi : i ≤ s.nruns) : i ≠ file s.nruns := by
  unfold file
  omega

/-- the open makes one inode live -/
theorem live_begin (hi : Live (s.begin job pid n) i) : i = file s.nruns ∨ Live s i := by
  rcases hi with rfl | ⟨r', hl⟩ | ⟨r', hr', hf, hk⟩
  · exact Or.inr (Or.inl rfl)
  · exact Or.inr (Or.inr (Or.inl ⟨r', hl⟩))
  · by_cases he : r' = s.nruns
    · exact Or.inl (he ▸ hf)
    · rw [begin_run_old he] at hk
      have hlt : r' < s.nruns := Nat.lt_of_le_of_ne (Nat.le_of_lt_succ hr') he
      exact Or.inr (Or.inr (Or.inr ⟨r', hlt, hf, hk⟩))

/-- an unused number is not that of a live inode -/
theorem unused_live (hn : s.Unused n) (hi : Live s i) : s.num i ≠ n := by
  rcases hi with rfl | ⟨r', hl⟩ | ⟨r', hr', rfl, hk⟩
  · exact hn.1
  · exact hn.2.1 (i, r') hl
  · exact hn.2.2 r' hr' hk

end Begin

section Step

variable {T : Table} {s : Sys} {r : ℕ} (h : Inv T s)
include h

theorem run_begun {p : Parent} (hp : (s.runs r).parent = p) (hne : p ≠ .dead) : r < s.nruns := by
  by_contra hn
  exact hne (hp.symm.trans (h.idle r (Nat.le_of_not_lt hn)).1)

theorem child_begun (hrun : (s.runs r).child.running = true) : r < s.nruns := by
  by_contra hn
  rw [(h.idle r (Nat.le_of_not_lt hn)).2] at hrun
  exact Bool.false_ne_true hrun

/-- a step of run r that keeps what is said of the other runs, and makes no inode live -/
theorem inv_of {t : Sys} {x : Run} (hruns : t.runs = Function.update s.runs r x) (hr : r < s.nruns)
    (hn : t.nruns = s.nruns) (hnum : t.num = s.num) (hx : RunInv t r x)
    (hother : ∀ r', r' < s.nruns → r' ≠ r → RunInv t r' (s.runs r'))
    (htable : t.data t.mtab = t.renames.foldl (fun T u => u.2.apply T) T)
    (hlock : ∀ i r, t.lock = some (i, r) → r < s.nruns ∧ i = file r ∧ t.mtab ≠ i) (hmtab : t.mtab ≤ s.nruns)
    (hlive : ∀ i, Live t i → Live s i) (honce : Once t) : Inv T t := by
  refine ⟨htable, ?_, ?_, ?_, ?_, ?_, honce⟩
  · intro r' hr'
    rw [hn] at hr'
    rw [hruns]
    by_cases he : r' = r
    · subst he
      rw [Function.update_self]
      exact hx
    · rw [Function.update_of_ne he]
      exact hother r' hr' he
  · intro i r' hl
    rw [hn]
    exact hlock i r' hl
  · rw [hn]
    exact hmtab
  · intro i j hi hj he
    rw [hnum] at he
    exact h.nums i j (hlive i hi) (hlive j hj) he
  · intro r' hr'
    rw [hn] at hr'
    rw [hruns, Function.update_of_ne (by omega)]
    exact h.idle r' hr'

/-- a step that changes what the run knows and writes to its file, which is not MTab -/
theorem inv_write {x : Run} (out : Table) (hr : r < s.nruns) (hx : RunInv (s.write r out) r x)
    (hmtab : out = s.data (file r) ∨ s.mtab ≠ file r) (hkeeps : x.keeps = true → (s.runs r).keeps = true)
    (hbefore : x.child.before = true → (s.runs r).child.before = true) : Inv T ((s.write r out).put r x) := by
  have htable : (s.write r out).data s.mtab = s.data s.mtab := by
    rcases hmtab with rfl | hne
    · rw [write_self]
    · exact write_other hne out
  refine inv_of h rfl hr rfl rfl ⟨hx.pid, hx.named, hx.opened, hx.running, hx.apart, hx.holds, hx.content, hx.saved,
    hx.reaped, hx.removing⟩ ?_ (htable.trans h.table) h.lock h.mtab ?_ (once_put h.once rfl rfl rfl hbefore)
  · intro r' hr' hne
    have hdata : (s.write r out).data (file r') = s.data (file r') :=
      write_other (fun he => hne (file_inj.1 he)) out
    exact (h.runs r' hr').frame (h.runs r' hr').pid (h.runs r' hr').apart (fun hl => ⟨hl, rfl, htable⟩) rfl hdata
  · intro i hi
    exact live_put hi rfl rfl hkeeps (Or.inl rfl) (fun i r' hl => Or.inr (Or.inl ⟨r', hl⟩))

/-- a step that changes only what the run knows -/
theorem inv_put {x : Run} (hr : r < s.nruns) (hx : RunInv s r x) (hkeeps : x.keeps = true → (s.runs r).keeps = true)
    (hbefore : x.child.before = true → (s.runs r).child.before = true) : Inv T (s.put r x) := by
  have hw := inv_write (x := x) h (s.data (file r)) hr
  rw [write_self] at hw
  exact hw hx (Or.inl rfl) hkeeps hbefore

end Step

end AufsUtil.Mtab
