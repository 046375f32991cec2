/-
One notification of aufs (`handle_fhsm` in `fhsm/event.c`, `au_mvdown_run` in `fhsm/mvdown.c`).

handle_fhsm reads one entry for every FHSM branch into the shared mapping. When the mapping is too small it reloads the
table and reads again (`read_rounds`). Then it calls au_mvdown_run for one entry after the other; when a call names a
next branch it goes on with that one, and afterwards comes back to the same entry (`while_loop`, `for_loop`). In daemon
mode au_mvdown_run forks a child, and the `next` of the parent stays NULL: the child has its own.

- `notification_forks`: in daemon mode one child is forked for every entry over its watermark that is not in operation
  yet, every entry is looked at once, and the loop ends.
- `run_refines`: a call of au_mvdown_run is the step that the event loop of `Fhsm/Daemon.lean` makes.
- `rounds_end_iff`: the reading ends exactly if the branches fit into the mapping or into the table, the table has
  become smaller, or a call of a reload fails at some time.

Inputs (`Env`): what read(2) returns, the calls of the reloads, and for every call of au_mvdown_run what the
children have done to the shared entries before it, malloc(3), fork(2), and in the foreground mvdown_child. A child
may store new statistics at any time; it keeps every brid (`Meanwhile`, `store_keeps_brids`). test_usage is any
function of the copy and the entry.

The fields `examined` and `forks` are history; no step depends on what they hold, the inputs are
numbered by their length.
-/
import Mathlib.Tactic
import AufsUtil.Fhsm.Mvdown
import AufsUtil.Fhsm.Turnover
import AufsUtil.Fhsm.Daemon
import AufsUtil.Fhsm.Reload

namespace AufsUtil.Fhsm.Notify

open AufsUtil.SortSearch AufsUtil.Fhsm.Reload

variable {F : Type}

/-! ## Inputs -/

/-- what the children do to the shared entries between two calls -/
structure Meanwhile where
  apply : List (Stbr Stfs) → List (Stbr Stfs)
  brids : ∀ l, (apply l).map Stbr.brid = l.map Stbr.brid

def Meanwhile.quiet : Meanwhile := ⟨id, fun _ => rfl⟩

/-- read(2) of the notification -/
inductive ReadRes where
  | entries (es : List (Stbr Stfs))
  | emsgsize
  | error

/-- mvdown_child in the foreground: err, *next, and the shared entries -/
structure ChildRes where
  err : ℤ
  next : Option ℕ
  stbr : List (Stbr Stfs)

/-- read(2) and the reloads are numbered by round, the rest by the calls of au_mvdown_run; fork is the pid -/
structure Env (F : Type) where
  read : ℕ → ℕ → ReadRes
  shm : ℕ → Option (Aufhsm F)
  reload : ℕ → ReloadSys
  children : ℕ → Meanwhile
  malloc : ℕ → Bool
  fork : ℕ → Option ℕ
  child : ℕ → ℕ → List (Stbr Stfs) → ChildRes
  /-- no more entries than the buffer holds -/
  fits : ∀ round nstbr es, read round nstbr = .entries es → es.length ≤ nstbr

/-- the globals of the daemon, the round of reading, and the history -/
structure State (F : Type) where
  fhsmd : Fhsmd F
  in_ope : List InOpe
  nodaemon : Bool
  round : ℕ
  /-- the index and the contents of every entry au_mvdown_run was called for -/
  examined : List (ℕ × Stbr Stfs)
  /-- the branches of the children forked -/
  forks : List ℤ

/-- the comm of the daemon has these entries -/
def State.put (st : State F) (c : Comm) (stbr : List (Stbr Stfs)) : State F :=
  { st with fhsmd := { st.fhsmd with comm := .map { c with stbr := stbr } } }

/-- au_mvdown_run was called for the entry e at index cur -/
def State.look (st : State F) (c : Comm) (stbr : List (Stbr Stfs)) (cur : ℕ) (e : Stbr Stfs) : State F :=
  { st.put c stbr with examined := st.examined ++ [(cur, e)] }

/-- how a loop ends; `gone` is a fault, or a failed assertion -/
inductive Ended (α : Type) where
  | gone
  | ret (a : α)

/-! ## The loops -/

section Loops

variable (fl : Floats F) (usage : Aufhsm F → Stbr Stfs → Bool) (env : Env F)

/-- err and *next; `none` if the process is gone -/
def au_mvdown_run (st : State F) (cur : ℕ) : Option (ℤ × Option ℕ × State F) :=
  let k := st.examined.length
  match st.fhsmd.comm, st.fhsmd.lcopy with
  | .map c, some lcopy =>
    let stbr := (env.children k).apply c.stbr
    match stbr[cur]? with
    | none => none
    | some e =>
      let st := st.look c stbr cur e
      if !usage lcopy e then some (0, none, st)
      else if !st.nodaemon then
        if st.in_ope.any (·.brid = e.brid) then some (0, none, st)
        -- the error of malloc is logged, and in_ope->brid set all the same
        else if !env.malloc k then none
        else
          match env.fork k with
          | some pid => some (0, none, { st with in_ope := ⟨e.brid, pid⟩ :: st.in_ope, forks := st.forks ++ [e.brid] })
          | none => some (-1, none, { st with in_ope := ⟨e.brid, 0⟩ :: st.in_ope })
      else
        let r := env.child k cur stbr
        some (r.err, r.next, st.put c r.stbr)
  | _, _ => none

/-- the inner loop: err, me_again; `none` if the fuel is used up -/
def while_loop : ℕ → State F → ℕ → Bool → Option (Ended (ℤ × Bool × State F))
  | 0, _, _, _ => none
  | fuel + 1, st, cur, me_again =>
    match au_mvdown_run usage env st cur with
    | none => some .gone
    | some (err, none, st) => some (.ret (err, me_again, st))
    | some (err, some next, st) =>
      if err ≠ 0 then some (.ret (err, me_again, st))
      else if next = cur then some .gone
      else while_loop fuel st next true

/-- the loop over the n entries, from index i on -/
def for_loop (n : ℕ) : ℕ → State F → ℕ → Option (Ended (ℤ × State F))
  | 0, _, _ => none
  | fuel + 1, st, i =>
    if i < n then
      match while_loop usage env fuel st i false with
      | none => none
      | some .gone => some .gone
      | some (.ret (err, me_again, st)) =>
        if err ≠ 0 then some (.ret (err, st))
        -- process the same branch again
        else for_loop n fuel st (if me_again then i else i + 1)
    else some (.ret (0, st))

/-- how the reading ends: with an error, or with new entries at the front of the mapping -/
inductive Reading (F : Type) where
  | gone
  | ret (err : ℤ) (st : State F)
  | notified (es : List (Stbr Stfs)) (st : State F)

/-- one read(2): the reading is over, or the table was reloaded and it goes on -/
inductive Round (F : Type) where
  | stop (r : Reading F)
  | again (st : State F)

/-- from the label `read` on. No entries at all are the end of the file. -/
def read_round (st : State F) : Round F :=
  match st.fhsmd.comm with
  | .null | .wild => .stop .gone
  | .map c =>
    match env.read st.round c.nstbr with
    | .entries es => .stop (.notified es (st.put c (es ++ c.stbr.drop es.length)))
    | .error => .stop (.ret (-1) st)
    | .emsgsize =>
      match Reload.au_fhsmd_load fl (env.shm st.round) st.fhsmd (env.reload st.round) with
      | none => .stop .gone
      | some (err, fhsmd) =>
        let st := { st with fhsmd := fhsmd, round := st.round + 1 }
        if err = 0 then .again st else .stop (.ret err st)

/-- `none` if the fuel is used up -/
def read_rounds : ℕ → State F → Option (Reading F)
  | 0, _ => none
  | fuel + 1, st =>
    match read_round fl env st with
    | .stop r => some r
    | .again st => read_rounds fuel st

def handle_fhsm (fuel : ℕ) (st : State F) : Option (Ended (ℤ × State F)) :=
  match read_rounds fl env fuel st with
  | none => none
  | some .gone => some .gone
  | some (.ret err st) => some (.ret (err, st))
  | some (.notified es st) => for_loop usage env es.length fuel st 0

end Loops

/-! ## What a child stores -/

theorem map_brid_set {S : Type} {l : List (Stbr S)} {k : ℕ} {e : Stbr S} (h : ∀ c, l[k]? = some c → c.brid = e.brid) :
    (l.set k e).map Stbr.brid = l.map Stbr.brid := by
  rw [List.map_set]
  refine List.ext_getElem? fun i => ?_
  rw [List.getElem?_set]
  by_cases hi : k = i
  · subst hi
    by_cases hk : k < l.length
    · simp [hk, h l[k] (List.getElem?_eq_getElem hk)]
    · simp [hk]
  · simp [hi]

/-- do_mvdown stores statistics under the brids that are there -/
theorem store_keeps_brids (bs : Bsearch (compare : ℤ → ℤ → Ordering) (Stbr.brid (S := Stfs))) (cur : ℕ)
    {st st' : MvState Stfs} (h : store_stbr bs cur st = some st') : st'.stbr.map Stbr.brid = st.stbr.map Stbr.brid := by
  unfold store_stbr at h
  split at h
  · rw [← Option.some.inj h]
  split at h
  · exact absurd h nofun
  next c hc =>
  split at h
  · exact absurd h nofun
  have hset : (st.stbr.set cur { c with stfs := st.mvdown.upper.stfs }).map Stbr.brid = st.stbr.map Stbr.brid := by
    refine map_brid_set fun c' hc' => ?_
    rw [hc, Option.some.injEq] at hc'
    rw [hc']
  simp only at h
  split at h
  · rw [← Option.some.inj h]
    exact hset
  split at h
  · rw [← Option.some.inj h]
    exact hset
  next k hk =>
  rw [← Option.some.inj h]
  refine (map_brid_set fun c' hc' => ?_).trans hset
  obtain ⟨a, ha, hcmp⟩ := bs.sound _ _ _ hk
  rw [ha, Option.some.injEq] at hc'
  rw [← hc']
  exact (compare_eq_iff_eq.1 hcmp).symm

/-- the entries after a child has stored, or the same if its do_mvdown fails -/
def Meanwhile.stores (bs : Bsearch (compare : ℤ → ℤ → Ordering) (Stbr.brid (S := Stfs))) (cur : ℕ) (st : MvState Stfs) :
    Meanwhile where
  apply l := ((store_stbr bs cur { st with stbr := l }).map MvState.stbr).getD l
  brids l := by
    cases h : store_stbr bs cur { st with stbr := l } with
    | none => rfl
    | some st' => exact store_keeps_brids bs cur h

/-! ## The entries, in daemon mode -/

section Daemon

variable (usage : Aufhsm F → Stbr Stfs → Bool) (env : Env F) (t : Aufhsm F) (old : List InOpe) (es : List (Stbr Stfs))

/-- the outcomes of au_mvdown_run in daemon mode for an entry e, `look` being the state once it was looked at -/
inductive Ran (k : ℕ) (e : Stbr Stfs) (look : State F) : Option (ℤ × Option ℕ × State F) → Prop
  | idle (h : (usage t e && !look.in_ope.any (·.brid = e.brid)) = false) : Ran k e look (some (0, none, look))
  | no_memory (h : (usage t e && !look.in_ope.any (·.brid = e.brid)) = true) (hmalloc : env.malloc k = false) :
      Ran k e look none
  | forked (h : (usage t e && !look.in_ope.any (·.brid = e.brid)) = true) (hmalloc : env.malloc k = true) (pid : ℕ)
      (hfork : env.fork k = some pid) :
      Ran k e look (some (0, none, { look with
        in_ope := ⟨e.brid, pid⟩ :: look.in_ope, forks := look.forks ++ [e.brid] }))
  | no_fork (h : (usage t e && !look.in_ope.any (·.brid = e.brid)) = true) (hmalloc : env.malloc k = true)
      (hfork : env.fork k = none) :
      Ran k e look (some (-1, none, { look with in_ope := ⟨e.brid, 0⟩ :: look.in_ope }))

variable {t} in
theorem au_mvdown_run_cases {st : State F} {c : Comm} {cur : ℕ} {e : Stbr Stfs} (hd : st.nodaemon = false)
    (hc : st.fhsmd.comm = .map c) (hl : st.fhsmd.lcopy = some t)
    (he : ((env.children st.examined.length).apply c.stbr)[cur]? = some e) :
    Ran usage env t st.examined.length e (st.look c ((env.children st.examined.length).apply c.stbr) cur e)
      (au_mvdown_run usage env st cur) := by
  have hdaemon : (!(st.look c ((env.children st.examined.length).apply c.stbr) cur e).nodaemon) = true :=
    congrArg (! ·) hd
  unfold au_mvdown_run
  simp only [hc, hl, he]
  generalize st.look c ((env.children st.examined.length).apply c.stbr) cur e = look at hdaemon
  generalize st.examined.length = k
  cases hu : usage t e with
  | false => exact .idle (by simp [hu])
  | true =>
    rw [if_neg (by simp), if_pos hdaemon]
    cases ho : look.in_ope.any (·.brid = e.brid) with
    | true => exact .idle (by simp [ho])
    | false =>
      have hneed : (usage t e && !look.in_ope.any (·.brid = e.brid)) = true := by simp [hu, ho]
      cases hm : env.malloc k with
      | false => exact .no_memory hneed hm
      | true =>
        cases hf : env.fork k with
        | none => exact .no_fork hneed hm hf
        | some pid => exact .forked hneed hm pid hf

variable {t} in
/-- the step that the event loop of `Fhsm/Daemon.lean` makes for an entry: the same branches in operation, and an error
ends the notification -/
theorem run_refines {D : Daemon} {st : State F} {c : Comm} {cur : ℕ} {e : Stbr Stfs} (hd : st.nodaemon = false)
    (hc : st.fhsmd.comm = .map c) (hl : st.fhsmd.lcopy = some t)
    (he : ((env.children st.examined.length).apply c.stbr)[cur]? = some e) (hD : D.lcopy.isSome = true)
    (hope : D.in_ope = st.in_ope) (hmalloc : env.malloc st.examined.length = true) {rest : List (ℤ × Bool)} {evs : List Ev}
    {D' : Daemon}
    (h : Fhsm.au_mvdown_run D e.brid (usage t e) rest evs (env.fork st.examined.length) = some D') :
    ∃ err st', au_mvdown_run usage env st cur = some (err, none, st') ∧ D'.in_ope = st'.in_ope ∧
      (err = 0 → D'.pc = .mvdown rest evs) ∧ (err ≠ 0 → D'.pc = .events evs ∧ D'.done = true) := by
  have hcases := au_mvdown_run_cases usage env hd hc hl he
  have hsome : ¬ D.lcopy.isNone = true := by
    rw [← Option.not_isSome, hD]
    exact nofun
  unfold Fhsm.au_mvdown_run at h
  rw [if_neg hsome, hope] at h
  have hneed : (usage t e && !st.in_ope.any (·.brid = e.brid)) = true →
      ¬ (!usage t e) = true ∧ ¬ st.in_ope.any (·.brid = e.brid) = true := by
    cases usage t e <;> cases st.in_ope.any (·.brid = e.brid) <;> simp
  have hidle : (usage t e && !st.in_ope.any (·.brid = e.brid)) = false →
      (!usage t e) = true ∨ st.in_ope.any (·.brid = e.brid) = true := by
    cases usage t e <;> cases st.in_ope.any (·.brid = e.brid) <;> simp
  generalize au_mvdown_run usage env st cur = r at hcases
  cases hcases with
  | idle hno =>
    have hD' : D' = { D with pc := .mvdown rest evs, in_ope := st.in_ope } := by
      by_cases hu : (!usage t e) = true
      · rw [if_pos hu] at h
        exact (Option.some.inj h).symm
      · rw [if_neg hu, if_pos ((hidle hno).resolve_left hu)] at h
        exact (Option.some.inj h).symm
    exact ⟨_, _, rfl, by rw [hD']; rfl, fun _ => by rw [hD'], fun hne => absurd rfl hne⟩
  | no_memory _ hm => exact absurd hmalloc (Bool.eq_false_iff.1 hm)
  | forked hyes _ pid hpid =>
    rw [if_neg (hneed hyes).1, if_neg (hneed hyes).2, hpid] at h
    simp only at h
    split at h
    · exact absurd h nofun
    · obtain rfl := Option.some.inj h
      exact ⟨_, _, rfl, rfl, fun _ => rfl, fun hne => absurd rfl hne⟩
  | no_fork hyes _ hnone =>
    rw [if_neg (hneed hyes).1, if_neg (hneed hyes).2, hnone] at h
    obtain rfl := Option.some.inj h
    exact ⟨_, _, rfl, rfl, fun h0 => absurd h0 (by decide), fun _ => ⟨rfl, rfl⟩⟩

/-- of the entries looked at, those over their watermark that were not in operation -/
def needed (examined : List (ℕ × Stbr Stfs)) : List ℤ :=
  ((examined.map Prod.snd).filter fun e => usage t e && !old.any (·.brid = e.brid)).map Stbr.brid

/-- no child stores anything -/
def Quiet : Prop := ∀ k l, (env.children k).apply l = l

/-- the entries of the notification are at the front of the mapping; their statistics may have been replaced since -/
def Holds (st : State F) : Prop :=
  ∃ c, st.fhsmd.comm = .map c ∧ (c.stbr.take es.length).map Stbr.brid = es.map Stbr.brid ∧
    (Quiet env → c.stbr.take es.length = es)

/-- the first i entries were looked at -/
structure Going (i : ℕ) (st : State F) : Prop where
  nodaemon : st.nodaemon = false
  lcopy : st.fhsmd.lcopy = some t
  holds : Holds env es st
  index : st.examined.map Prod.fst = List.range i
  brids : (st.examined.map Prod.snd).map Stbr.brid = (es.map Stbr.brid).take i
  quiet : Quiet env → st.examined.map Prod.snd = es.take i
  forks : st.forks = needed usage t old st.examined
  in_ope : st.in_ope.map InOpe.brid = st.forks.reverse ++ old.map InOpe.brid

variable {usage env t old es}

/-- what au_mvdown_run finds at an index of the notification -/
theorem Holds.entry {st : State F} (h : Holds env es st) {i : ℕ} (hi : i < es.length) (k : ℕ) :
    ∃ c e, st.fhsmd.comm = .map c ∧ ((env.children k).apply c.stbr)[i]? = some e ∧ e.brid = es[i].brid ∧
      (Quiet env → e = es[i]) ∧ ∀ st' : State F,
        st'.fhsmd.comm = .map { c with stbr := (env.children k).apply c.stbr } → Holds env es st' := by
  obtain ⟨c, hc, hbrids, hquiet⟩ := h
  have hbrids' : (((env.children k).apply c.stbr).take es.length).map Stbr.brid = es.map Stbr.brid := by
    rw [List.map_take, (env.children k).brids, ← List.map_take, hbrids]
  have hget : ((((env.children k).apply c.stbr)[i]?).map Stbr.brid) = some es[i].brid := by
    have := congrArg (·[i]?) hbrids'
    simpa [List.getElem?_take, hi] using this
  obtain ⟨e, he, hbrid⟩ := Option.map_eq_some_iff.1 hget
  refine ⟨c, e, hc, he, hbrid, fun hq => ?_, fun st' hst' => ⟨_, hst', hbrids', fun hq => ?_⟩⟩
  · have := congrArg (·[i]?) (hquiet hq)
    rw [hq] at he
    simp only [List.getElem?_take, hi, if_true, he, List.getElem?_eq_getElem hi, Option.some.injEq] at this
    exact this
  · rw [hq k]
    exact hquiet hq

theorem needed_append (xs : List (ℕ × Stbr Stfs)) (i : ℕ) (e : Stbr Stfs) :
    needed usage t old (xs ++ [(i, e)]) =
      needed usage t old xs ++ if usage t e && !old.any (·.brid = e.brid) then [e.brid] else [] := by
  unfold needed
  rw [List.map_append, List.filter_append, List.map_append]
  congr 1
  by_cases h : (usage t e && !old.any (·.brid = e.brid)) = true <;> simp [h]

/-- the list of branches in operation decides for the next entry as the old list does -/
theorem Going.in_ope_any {i : ℕ} {st : State F} (h : Going usage env t old es i st) (hnodup : (es.map Stbr.brid).Nodup)
    (hi : i < es.length) : st.in_ope.any (·.brid = es[i].brid) = old.any (·.brid = es[i].brid) := by
  have hnew : es[i].brid ∉ st.forks := by
    rw [h.forks]
    intro hmem
    obtain ⟨e, he, hbrid⟩ := List.mem_map.1 hmem
    have hseen : es[i].brid ∈ (es.map Stbr.brid).take i := by
      rw [← h.brids, ← hbrid]
      exact List.mem_map_of_mem (List.mem_of_mem_filter he)
    obtain ⟨j, hj, hget⟩ := List.mem_take_iff_getElem.1 hseen
    have hlen : i < (es.map Stbr.brid).length := by simpa using hi
    have hij : (es.map Stbr.brid)[j] = (es.map Stbr.brid)[i] := by simpa using hget
    have := hnodup.getElem_inj_iff.1 hij
    omega
  have hmem : ∀ l : List InOpe, l.any (·.brid = es[i].brid) = decide (es[i].brid ∈ l.map InOpe.brid) := by
    intro l
    rw [Bool.eq_iff_iff, List.any_eq_true, decide_eq_true_iff, List.mem_map]
    simp
  rw [hmem, hmem, h.in_ope]
  simp [hnew]

/-- one call of au_mvdown_run in daemon mode: the entry is looked at, and a child forked if it is needed -/
theorem Going.run {i : ℕ} {st : State F} (h : Going usage env t old es i st) (hnodup : (es.map Stbr.brid).Nodup)
    (hmalloc : ∀ k, env.malloc k = true) (hfork : ∀ k, (env.fork k).isSome = true) (hi : i < es.length) :
    ∃ st', au_mvdown_run usage env st i = some (0, none, st') ∧ Going usage env t old es (i + 1) st' := by
  obtain ⟨c, e, hc, he, hbrid, hquiet, hholds⟩ := h.holds.entry hi st.examined.length
  have hany : st.in_ope.any (·.brid = e.brid) = old.any (·.brid = e.brid) := by
    rw [hbrid]
    exact h.in_ope_any hnodup hi
  have hindex : (st.examined ++ [(i, e)]).map Prod.fst = List.range (i + 1) := by
    rw [List.map_append, h.index, List.range_succ]
    rfl
  have hbrids : ((st.examined ++ [(i, e)]).map Prod.snd).map Stbr.brid = (es.map Stbr.brid).take (i + 1) := by
    rw [List.map_append, List.map_append, h.brids, List.take_succ_eq_append_getElem (by simpa using hi)]
    simp [hbrid]
  have hseen : Quiet env → (st.examined ++ [(i, e)]).map Prod.snd = es.take (i + 1) := by
    intro hq
    rw [List.map_append, h.quiet hq, List.take_succ_eq_append_getElem hi, ← hquiet hq]
    rfl
  have hneed : needed usage t old (st.examined ++ [(i, e)]) =
      st.forks ++ if usage t e && !st.in_ope.any (·.brid = e.brid) then [e.brid] else [] := by
    rw [needed_append, hany, h.forks]
  have hcases := au_mvdown_run_cases usage env h.nodaemon hc h.lcopy he
  generalize au_mvdown_run usage env st i = r at hcases
  cases hcases with
  | idle hno =>
    refine ⟨_, rfl, h.nodaemon, h.lcopy, hholds _ rfl, hindex, hbrids, hseen, ?_, h.in_ope⟩
    have hno' : ¬ (usage t e && !st.in_ope.any (·.brid = e.brid)) = true := Bool.eq_false_iff.1 hno
    rw [if_neg hno', List.append_nil] at hneed
    exact hneed.symm
  | no_memory hyes hm => exact absurd (hmalloc _) (Bool.eq_false_iff.1 hm)
  | forked hyes hm pid hpid =>
    refine ⟨_, rfl, h.nodaemon, h.lcopy, hholds _ rfl, hindex, hbrids, hseen, ?_, ?_⟩
    · have hyes' : (usage t e && !st.in_ope.any (·.brid = e.brid)) = true := hyes
      rw [if_pos hyes'] at hneed
      exact hneed.symm
    · calc e.brid :: st.in_ope.map InOpe.brid = e.brid :: (st.forks.reverse ++ old.map InOpe.brid) := by rw [h.in_ope]
        _ = (st.forks ++ [e.brid]).reverse ++ old.map InOpe.brid := by simp
  | no_fork hyes hm hnone =>
    have := hfork st.examined.length
    rw [hnone] at this
    exact absurd this nofun

/-- the loop ends behind the last entry, with all of them looked at -/
theorem Going.for_loop {i fuel : ℕ} {st : State F} (h : Going usage env t old es i st) (hnodup : (es.map Stbr.brid).Nodup)
    (hmalloc : ∀ k, env.malloc k = true) (hfork : ∀ k, (env.fork k).isSome = true) (hi : i ≤ es.length)
    (hfuel : es.length + 2 ≤ i + fuel) :
    ∃ st', for_loop usage env es.length fuel st i = some (.ret (0, st')) ∧ Going usage env t old es es.length st' := by
  induction fuel generalizing i st with
  | zero => omega
  | succ fuel ih =>
    rw [Notify.for_loop]
    by_cases hlt : i < es.length
    · obtain ⟨st', hrun, h'⟩ := h.run hnodup hmalloc hfork hlt
      obtain ⟨fuel, rfl⟩ : ∃ f, fuel = f + 1 := ⟨fuel - 1, by omega⟩
      rw [if_pos hlt, while_loop, hrun]
      have hfuel' : es.length + 2 ≤ i + 1 + (fuel + 1) := by omega
      exact ih h' hlt hfuel'
    · rw [if_neg hlt]
      obtain rfl : i = es.length := by omega
      exact ⟨st, rfl, h⟩

/-- reading changes nothing but the copy and the mapping -/
structure SameBut (st st₁ : State F) : Prop where
  nodaemon : st₁.nodaemon = st.nodaemon
  in_ope : st₁.in_ope = st.in_ope
  examined : st₁.examined = st.examined
  forks : st₁.forks = st.forks

theorem SameBut.trans {st st₁ st₂ : State F} (h : SameBut st st₁) (h' : SameBut st₁ st₂) : SameBut st st₂ :=
  ⟨h'.nodaemon.trans h.nodaemon, h'.in_ope.trans h.in_ope, h'.examined.trans h.examined, h'.forks.trans h.forks⟩

/-- the outcomes of one read(2) into a mapping -/
inductive RoundOf (fl : Floats F) (env : Env F) (st : State F) (c : Comm) : Round F → Prop
  | notified (es : List (Stbr Stfs)) (h : env.read st.round c.nstbr = .entries es) :
      RoundOf fl env st c (.stop (.notified es (st.put c (es ++ c.stbr.drop es.length))))
  | error (h : env.read st.round c.nstbr = .error) : RoundOf fl env st c (.stop (.ret (-1) st))
  | gone (h : env.read st.round c.nstbr = .emsgsize)
      (hload : Reload.au_fhsmd_load fl (env.shm st.round) st.fhsmd (env.reload st.round) = none) :
      RoundOf fl env st c (.stop .gone)
  | failed (h : env.read st.round c.nstbr = .emsgsize) (err : ℤ) (herr : err ≠ 0) (fhsmd : Fhsmd F)
      (hload : Reload.au_fhsmd_load fl (env.shm st.round) st.fhsmd (env.reload st.round) = some (err, fhsmd)) :
      RoundOf fl env st c (.stop (.ret err { st with fhsmd := fhsmd, round := st.round + 1 }))
  | again (h : env.read st.round c.nstbr = .emsgsize) (fhsmd : Fhsmd F)
      (hload : Reload.au_fhsmd_load fl (env.shm st.round) st.fhsmd (env.reload st.round) = some (0, fhsmd)) :
      RoundOf fl env st c (.again { st with fhsmd := fhsmd, round := st.round + 1 })

variable (env) in
theorem read_round_cases (fl : Floats F) {st : State F} {c : Comm} (hc : st.fhsmd.comm = .map c) :
    RoundOf fl env st c (read_round fl env st) := by
  unfold read_round
  simp only [hc]
  cases hread : env.read st.round c.nstbr with
  | entries es => exact .notified es hread
  | error => exact .error hread
  | emsgsize =>
    simp only
    cases hload : Reload.au_fhsmd_load fl (env.shm st.round) st.fhsmd (env.reload st.round) with
    | none => exact .gone hread hload
    | some r =>
      obtain ⟨err, fhsmd⟩ := r
      simp only
      by_cases herr : err = 0
      · subst herr
        exact .again hread fhsmd hload
      · rw [if_neg herr]
        exact .failed hread err herr fhsmd hload

/-- without a mapping the reading ends at once -/
theorem read_round_gone (fl : Floats F) {st : State F} (h : ∀ c, st.fhsmd.comm ≠ .map c) :
    read_round fl env st = .stop .gone := by
  unfold read_round
  cases hc : st.fhsmd.comm with
  | null => rfl
  | wild => rfl
  | map c => exact absurd hc (h c)

/-- a state in which the reading does not end at once has a mapping -/
theorem read_round_mapped {fl : Floats F} {st : State F} (h : read_round fl env st ≠ .stop .gone) :
    ∃ c, st.fhsmd.comm = .map c := by
  by_contra hno
  exact h (read_round_gone fl (not_exists.1 hno))

theorem read_round_again {fl : Floats F} {st st₁ : State F} (h : read_round fl env st = .again st₁) :
    SameBut st st₁ := by
  have hgone : read_round fl env st ≠ .stop .gone := h ▸ nofun
  obtain ⟨c, hc⟩ := read_round_mapped hgone
  have hcases := read_round_cases env fl hc
  rw [h] at hcases
  cases hcases
  exact ⟨rfl, rfl, rfl, rfl⟩

theorem read_round_notified {fl : Floats F} {st st₁ : State F} (h : read_round fl env st = .stop (.notified es st₁)) :
    SameBut st st₁ ∧ Holds env es st₁ := by
  have hgone : read_round fl env st ≠ .stop .gone := h ▸ nofun
  obtain ⟨c, hc⟩ := read_round_mapped hgone
  have hcases := read_round_cases env fl hc
  rw [h] at hcases
  cases hcases
  exact ⟨⟨rfl, rfl, rfl, rfl⟩, _, rfl, by simp, by simp⟩

/-- so it is over all rounds -/
theorem read_rounds_notified {fl : Floats F} {fuel : ℕ} {st st₁ : State F}
    (h : read_rounds fl env fuel st = some (.notified es st₁)) : SameBut st st₁ ∧ Holds env es st₁ := by
  induction fuel generalizing st with
  | zero => exact absurd h nofun
  | succ fuel ih =>
    rw [read_rounds] at h
    cases hr : read_round fl env st with
    | stop r =>
      simp only [hr, Option.some.injEq] at h
      exact read_round_notified (h ▸ hr)
    | again st' =>
      rw [hr] at h
      obtain ⟨hsame, hholds⟩ := ih h
      exact ⟨(read_round_again hr).trans hsame, hholds⟩

/-- more fuel does not change how the reading ends -/
theorem read_rounds_mono {fl : Floats F} {fuel more : ℕ} {st : State F} {r : Reading F}
    (h : read_rounds fl env fuel st = some r) (hle : fuel ≤ more) : read_rounds fl env more st = some r := by
  induction fuel generalizing st more with
  | zero => exact absurd h nofun
  | succ fuel ih =>
    obtain ⟨more, rfl⟩ : ∃ m, more = m + 1 := ⟨more - 1, by omega⟩
    rw [read_rounds] at h ⊢
    cases hr : read_round fl env st with
    | stop r => simpa only [hr] using h
    | again st' =>
      rw [hr] at h
      exact ih h (by omega)

variable (usage t old es) in
/-- what handling a notification has done when it is over, `old` being in operation before -/
structure Handled (st : State F) : Prop where
  /-- the entries are looked at one after the other, each of them once -/
  index : st.examined.map Prod.fst = List.range es.length
  brids : (st.examined.map Prod.snd).map Stbr.brid = es.map Stbr.brid
  /-- one child for each of those over their watermark that were not in operation -/
  once : st.forks.Nodup
  forks : ∀ brid, brid ∈ st.forks ↔
    brid ∉ old.map InOpe.brid ∧ ∃ x ∈ st.examined, x.2.brid = brid ∧ usage t x.2 = true
  /-- the new ones are in front of the old ones -/
  added : st.in_ope.map InOpe.brid = st.forks.reverse ++ old.map InOpe.brid
  in_ope : ∀ brid, brid ∈ st.in_ope.map InOpe.brid ↔
    brid ∈ old.map InOpe.brid ∨ ∃ x ∈ st.examined, x.2.brid = brid ∧ usage t x.2 = true

theorem mem_needed {examined : List (ℕ × Stbr Stfs)} {brid : ℤ} :
    brid ∈ needed usage t old examined ↔
      brid ∉ old.map InOpe.brid ∧ ∃ x ∈ examined, x.2.brid = brid ∧ usage t x.2 = true := by
  have hany : ∀ x : ℤ, old.any (·.brid = x) = true ↔ x ∈ old.map InOpe.brid := by simp
  simp only [needed, List.mem_map (f := Stbr.brid), List.mem_filter, List.mem_map (f := Prod.snd), Bool.and_eq_true,
    Bool.not_eq_true', ← Bool.not_eq_true, hany]
  constructor
  · rintro ⟨e, ⟨⟨x, hx, rfl⟩, hu, hold⟩, rfl⟩
    exact ⟨hold, x, hx, rfl, hu⟩
  · rintro ⟨hold, x, hx, rfl, hu⟩
    exact ⟨x.2, ⟨⟨x, hx, rfl⟩, hu, hold⟩, rfl⟩

theorem Going.handled {st : State F} (h : Going usage env t old es es.length st) (hnodup : (es.map Stbr.brid).Nodup) :
    Handled usage t old es st where
  index := h.index
  brids := by rw [h.brids, List.take_of_length_le (by simp)]
  once := by
    rw [h.forks]
    refine (List.filter_sublist.map _).nodup ?_
    rw [h.brids, List.take_of_length_le (by simp)]
    exact hnodup
  forks brid := by
    rw [h.forks]
    exact mem_needed
  added := h.in_ope
  in_ope brid := by
    rw [h.in_ope, List.mem_append, List.mem_reverse, h.forks, mem_needed]
    by_cases hold : brid ∈ old.map InOpe.brid <;> simp [hold]

/-- **One notification starts exactly the needed children.** In daemon mode, when no malloc and no fork fails:
however many rounds the reading took, whatever the copy and the branches in operation, and whatever the
children store meanwhile, handle_fhsm returns 0 with every entry looked at once, and has forked once for each
of those over their watermark that were not in operation. If no child stores anything, the entries looked at
are those of the notification. -/
theorem notification_forks (fl : Floats F) (usage : Aufhsm F → Stbr Stfs → Bool) (env : Env F) (st st₁ : State F)
    (es : List (Stbr Stfs)) (t : Aufhsm F) (rounds : ℕ) (hd : st.nodaemon = false) (hnone : st.examined = [])
    (hforks : st.forks = []) (hread : read_rounds fl env rounds st = some (.notified es st₁))
    (hnodup : (es.map Stbr.brid).Nodup) (hcopy : st₁.fhsmd.lcopy = some t) (hmalloc : ∀ k, env.malloc k = true)
    (hfork : ∀ k, (env.fork k).isSome = true) :
    ∃ enough, ∀ fuel, enough ≤ fuel → ∃ st', handle_fhsm fl usage env fuel st = some (.ret (0, st')) ∧
      Handled usage t st.in_ope es st' ∧ (Quiet env → st'.examined.map Prod.snd = es) := by
  obtain ⟨hsame, hholds⟩ := read_rounds_notified hread
  have hstart : Going usage env t st.in_ope es 0 st₁ := by
    refine ⟨hsame.nodaemon.trans hd, hcopy, hholds, ?_, ?_, ?_, ?_, ?_⟩
    · rw [hsame.examined, hnone]
      rfl
    · rw [hsame.examined, hnone]
      rfl
    · rw [hsame.examined, hnone]
      exact fun _ => rfl
    · rw [hsame.forks, hforks, hsame.examined, hnone]
      rfl
    · rw [hsame.in_ope, hsame.forks, hforks]
      rfl
  refine ⟨rounds + es.length + 2, fun fuel hfuel => ?_⟩
  have hlong : es.length + 2 ≤ 0 + fuel := by omega
  obtain ⟨st', hloop, hend⟩ := hstart.for_loop hnodup hmalloc hfork (Nat.zero_le _) hlong
  refine ⟨st', ?_, hend.handled hnodup, fun hq => ?_⟩
  · rw [handle_fhsm, read_rounds_mono hread (by omega)]
    exact hloop
  · rw [hend.quiet hq, List.take_length]

/-- a kernel with these entries, a reload that is not needed, and children that store nothing -/
def plain (es : List (Stbr Stfs)) (shm : Option (Aufhsm F)) (reload : ReloadSys) : Env F where
  read _ nstbr := if es.length ≤ nstbr then .entries es else .emsgsize
  shm _ := shm
  reload _ := reload
  children _ := .quiet
  malloc _ := true
  fork k := some (k + 100)
  child _ _ stbr := ⟨0, none, stbr⟩
  fits _ nstbr es' h := by
    by_cases hle : es.length ≤ nstbr
    · rw [if_pos hle] at h
      rw [← ReadRes.entries.inj h]
      exact hle
    · rw [if_neg hle] at h
      exact absurd h nofun

/-- every call of a reload succeeds -/
def reloadOk : ReloadSys :=
  ⟨⟨⟨⟨true, true, true⟩, true, true⟩, true, true, true⟩, true, ⟨⟨true, true, true⟩, true, true, true, true, false⟩⟩

/-- two branches, the upper one nearly full -/
def nearlyFull : List (Stbr Stfs) := [⟨0, ⟨100, 1, 100, 50⟩⟩, ⟨1, ⟨100, 90, 100, 50⟩⟩]

def bridSearch : Bsearch bridOrd (Wmark.brid (F := ℚ)) := Bsearch.linear bridOrd Wmark.brid

/-- the daemon before the notification, with this mapping -/
def waitingWith (c : Comm) : State ℚ := ⟨.ready twoTable c, [], false, 0, [], []⟩

theorem notification_forks_nearlyFull : ∃ enough, ∀ fuel, enough ≤ fuel → ∃ st',
    handle_fhsm ratFloats (test_usage bridSearch) (plain nearlyFull none reloadOk) fuel (waitingWith (.zeroed 2)) =
      some (.ret (0, st')) ∧ Handled (test_usage bridSearch) twoTable [] nearlyFull st' ∧
      (Quiet (plain (F := ℚ) nearlyFull none reloadOk) → st'.examined.map Prod.snd = nearlyFull) :=
  notification_forks ratFloats (test_usage bridSearch) (plain nearlyFull none reloadOk) (waitingWith (.zeroed 2))
    (waitingWith ⟨.NONE, nearlyFull⟩) nearlyFull twoTable 1 rfl rfl rfl rfl (by decide) rfl (fun _ => rfl)
    (fun _ => rfl)

end Daemon

/-! ## The rounds of reading -/

section Rounds

variable (fl : Floats F) (usage : Aufhsm F → Stbr Stfs → Bool) (env : Env F) (b : ℕ) (table : Aufhsm F)

/-- there are b FHSM branches, more than the buffer holds exactly if read(2) fails with EMSGSIZE; and the table in the
shared memory verifies and stays -/
structure Steady : Prop where
  kernel : ∀ round nstbr, env.read round nstbr = .emsgsize ↔ nstbr < b
  shm : ∀ round, env.shm round = some table
  verifies : au_fhsm_sign_verify fl table = true

/-- the reading ends, and in daemon mode handle_fhsm does -/
def Ends (st : State F) : Prop :=
  (∃ rounds, (read_rounds fl env rounds st).isSome = true) ∧
    (st.nodaemon = false → ∃ fuel, (handle_fhsm fl usage env fuel st).isSome = true)

/-- the branches fit into the mapping, the table has become smaller, the branches fit into a mapping for the table, or a
call of a reload fails at some time -/
def Enough (st : State F) (c : Comm) : Prop :=
  b ≤ c.nstbr ∨ table.nwmark < (st.fhsmd.lcopy.map Aufhsm.nwmark).getD 0 ∨ b ≤ table.nwmark ∨
    ∃ round, st.round ≤ round ∧ ¬ (env.reload round).Ok table.nwmark

variable {fl env b table}

/-- the state after a reload -/
def reloaded (table : Aufhsm F) (st : State F) (c : Comm) : State F :=
  { st with fhsmd := .ready table { Comm.zeroed table.nwmark with msg := c.msg }, round := st.round + 1 }

theorem State.fhsmd_of_comm {st : State F} {c : Comm} (hc : st.fhsmd.comm = .map c) :
    st.fhsmd = ⟨st.fhsmd.lcopy, .map c⟩ := by rw [← hc]

/-- when there is another round -/
theorem Steady.again_iff (h : Steady fl env b table) {st st' : State F} {c : Comm} (hc : st.fhsmd.comm = .map c) :
    read_round fl env st = .again st' ↔ c.nstbr < b ∧ (st.fhsmd.lcopy.map Aufhsm.nwmark).getD 0 ≤ table.nwmark ∧
      (env.reload st.round).Ok table.nwmark ∧ st' = reloaded table st c := by
  have hfhsmd := State.fhsmd_of_comm hc
  have hload := load_eq_zero fl (env.reload st.round) h.verifies st.fhsmd.lcopy c
  rw [← hfhsmd, ← h.shm st.round] at hload
  have hcases := read_round_cases env fl hc
  generalize read_round fl env st = r at hcases
  cases hcases with
  | notified es hread =>
    refine iff_of_false nofun fun ⟨hlt, _⟩ => ?_
    rw [(h.kernel st.round c.nstbr).2 hlt] at hread
    exact absurd hread nofun
  | error hread =>
    refine iff_of_false nofun fun ⟨hlt, _⟩ => ?_
    rw [(h.kernel st.round c.nstbr).2 hlt] at hread
    exact absurd hread nofun
  | gone hread hnone =>
    refine iff_of_false nofun fun ⟨_, hn, hok, _⟩ => ?_
    rw [(hload _).2 ⟨hn, hok, rfl⟩] at hnone
    exact absurd hnone nofun
  | failed hread err herr fhsmd hsome =>
    refine iff_of_false nofun fun ⟨_, hn, hok, _⟩ => ?_
    rw [(hload _).2 ⟨hn, hok, rfl⟩] at hsome
    exact herr (Prod.mk.inj (Option.some.inj hsome)).1.symm
  | again hread fhsmd hsome =>
    obtain ⟨hn, hok, rfl⟩ := (hload fhsmd).1 hsome
    rw [Round.again.injEq]
    exact ⟨fun heq => ⟨(h.kernel st.round c.nstbr).1 hread, hn, hok, heq.symm⟩, fun ⟨_, _, _, heq⟩ => heq.symm⟩

theorem read_rounds_succ (fuel : ℕ) (st : State F) :
    (read_rounds fl env (fuel + 1) st).isSome = true ↔
      ∀ st', read_round fl env st = .again st' → (read_rounds fl env fuel st').isSome = true := by
  rw [read_rounds]
  cases read_round fl env st with
  | stop r => simp
  | again st' => simp

/-- the reading ends, seen from one state -/
theorem rounds_end_succ (st : State F) : (∃ rounds, (read_rounds fl env rounds st).isSome = true) ↔
    ∀ st', read_round fl env st = .again st' → ∃ rounds, (read_rounds fl env rounds st').isSome = true := by
  constructor
  · rintro ⟨rounds, h⟩ st' hst'
    obtain ⟨fuel, rfl⟩ : ∃ fuel, rounds = fuel + 1 := by
      refine ⟨rounds - 1, ?_⟩
      rcases rounds with _ | _
      · exact absurd h nofun
      · rfl
    exact ⟨fuel, (read_rounds_succ fuel st).1 h st' hst'⟩
  · intro h
    cases hr : read_round fl env st with
    | stop r =>
      refine ⟨1, (read_rounds_succ 0 st).2 fun st' hst' => ?_⟩
      rw [hr] at hst'
      exact absurd hst' nofun
    | again st' =>
      obtain ⟨fuel, hfuel⟩ := h st' hr
      refine ⟨fuel + 1, (read_rounds_succ fuel st).2 fun st'' hst'' => ?_⟩
      rw [hr, Round.again.injEq] at hst''
      exact hst'' ▸ hfuel

/-- once the table was loaded: the reading goes on for ever exactly if the branches do not fit and no reload fails -/
theorem Steady.reloaded_ends_iff (h : Steady fl env b table) {st : State F} {c : Comm} (hc : st.fhsmd.comm = .map c)
    (hl : st.fhsmd.lcopy = some table) (hn : c.nstbr = table.nwmark) :
    (∃ rounds, (read_rounds fl env rounds st).isSome = true) ↔
      b ≤ table.nwmark ∨ ∃ round, st.round ≤ round ∧ ¬ (env.reload round).Ok table.nwmark := by
  have hcomm : ∀ st : State F, ∀ c, (reloaded table st c).fhsmd.comm = .map _ := fun _ _ => rfl
  have hlen : ∀ msg, Comm.nstbr { Comm.zeroed table.nwmark with msg := msg } = table.nwmark := by
    intro msg
    simp [Comm.nstbr, Comm.zeroed]
  constructor
  · -- without an end, every round leads to another one like it
    rintro ⟨rounds, hr⟩
    by_contra hnot
    push Not at hnot
    obtain ⟨hb, hok⟩ := hnot
    induction rounds generalizing st c with
    | zero => exact absurd hr nofun
    | succ rounds ih =>
      have hgo := (h.again_iff hc).2 ⟨hn ▸ hb, by simp [hl], hok st.round le_rfl, rfl⟩
      have hr' := (read_rounds_succ rounds st).1 hr _ hgo
      refine ih (hcomm st c) rfl (hlen c.msg) hr' fun round hle => hok round ?_
      exact (Nat.le_succ st.round).trans hle
  · rintro (hb | ⟨round, hle, hfail⟩)
    · rw [rounds_end_succ]
      intro st' hst'
      obtain ⟨hlt, _⟩ := (h.again_iff hc).1 hst'
      omega
    · -- the number of rounds until the reload that fails
      obtain ⟨k, rfl⟩ := Nat.exists_eq_add_of_le hle
      induction k generalizing st c with
      | zero =>
        rw [rounds_end_succ]
        intro st' hst'
        obtain ⟨_, _, hok, _⟩ := (h.again_iff hc).1 hst'
        exact absurd hok hfail
      | succ k ih =>
        rw [rounds_end_succ]
        intro st' hst'
        obtain ⟨_, _, _, rfl⟩ := (h.again_iff hc).1 hst'
        refine ih (hcomm st c) rfl (hlen c.msg) (Nat.le_add_right _ k) ?_
        rwa [reloaded, Nat.add_right_comm, Nat.add_assoc]

theorem Steady.reading_ends_iff (h : Steady fl env b table) {st : State F} {c : Comm} (hc : st.fhsmd.comm = .map c) :
    (∃ rounds, (read_rounds fl env rounds st).isSome = true) ↔ Enough env b table st c := by
  rw [rounds_end_succ]
  unfold Enough
  by_cases hgo : c.nstbr < b ∧ (st.fhsmd.lcopy.map Aufhsm.nwmark).getD 0 ≤ table.nwmark ∧
      (env.reload st.round).Ok table.nwmark
  · obtain ⟨hlt, hn, hok⟩ := hgo
    have hagain := (h.again_iff hc).2 ⟨hlt, hn, hok, rfl⟩
    have hrest : (∃ rounds, (read_rounds fl env rounds (reloaded table st c)).isSome = true) ↔
        b ≤ table.nwmark ∨ ∃ round, st.round + 1 ≤ round ∧ ¬ (env.reload round).Ok table.nwmark :=
      h.reloaded_ends_iff rfl rfl (by simp [Comm.nstbr, Comm.zeroed])
    constructor
    · intro hends
      rcases hrest.1 (hends _ hagain) with hb | ⟨round, hle, hfail⟩
      · exact .inr (.inr (.inl hb))
      · exact .inr (.inr (.inr ⟨round, by omega, hfail⟩))
    · intro hor st' hst'
      rw [hagain, Round.again.injEq] at hst'
      rw [← hst', hrest]
      rcases hor with hb | hfew | hb | ⟨round, hle, hfail⟩
      · omega
      · omega
      · exact .inl hb
      · -- this round's reload does not fail
        have hne : st.round ≠ round := fun heq => hfail (heq ▸ hok)
        exact .inr ⟨round, by omega, hfail⟩
  · refine iff_of_true (fun st' hst' => ?_) ?_
    · obtain ⟨hlt, hn, hok, -⟩ := (h.again_iff hc).1 hst'
      exact absurd ⟨hlt, hn, hok⟩ hgo
    · rw [not_and_or, not_and_or, not_lt, not_le] at hgo
      rcases hgo with hb | hfew | hfail
      · exact .inl hb
      · exact .inr (.inl hfew)
      · exact .inr (.inr (.inr ⟨st.round, le_rfl, hfail⟩))

variable (env) in
/-- in daemon mode au_mvdown_run names no next branch -/
theorem run_next {st : State F} (hd : st.nodaemon = false) (cur : ℕ) :
    au_mvdown_run usage env st cur = none ∨
      ∃ err st', au_mvdown_run usage env st cur = some (err, none, st') ∧ st'.nodaemon = false := by
  by_cases hgood : ∃ c t e, st.fhsmd.comm = .map c ∧ st.fhsmd.lcopy = some t ∧
      ((env.children st.examined.length).apply c.stbr)[cur]? = some e
  · obtain ⟨c, t, e, hc, hl, he⟩ := hgood
    have hcases := au_mvdown_run_cases usage env hd hc hl he
    generalize au_mvdown_run usage env st cur = r at hcases
    cases hcases with
    | idle => exact .inr ⟨_, _, rfl, hd⟩
    | no_memory => exact .inl rfl
    | forked => exact .inr ⟨_, _, rfl, hd⟩
    | no_fork => exact .inr ⟨_, _, rfl, hd⟩
  · left
    unfold au_mvdown_run
    cases hc : st.fhsmd.comm with
    | null => rfl
    | wild => rfl
    | map c =>
      cases hl : st.fhsmd.lcopy with
      | none => rfl
      | some t =>
        simp only
        cases he : ((env.children st.examined.length).apply c.stbr)[cur]? with
        | none => rfl
        | some e => exact absurd ⟨c, t, e, hc, hl, he⟩ hgood

variable (env) in
/-- so the loop over the entries ends, whatever malloc and fork do -/
theorem for_loop_ends {n i fuel : ℕ} {st : State F} (hd : st.nodaemon = false) (hi : i ≤ n) (hfuel : n + 2 ≤ i + fuel) :
    (for_loop usage env n fuel st i).isSome = true := by
  induction fuel generalizing i st with
  | zero => omega
  | succ fuel ih =>
    rw [for_loop]
    by_cases hlt : i < n
    · obtain ⟨fuel, rfl⟩ : ∃ f, fuel = f + 1 := ⟨fuel - 1, by omega⟩
      rw [if_pos hlt, while_loop]
      rcases run_next usage env hd i with hrun | ⟨err, st', hrun, hd'⟩
      · rw [hrun]
        rfl
      · rw [hrun]
        by_cases herr : err ≠ 0
        · simp [herr]
        · have hfuel' : n + 2 ≤ i + 1 + (fuel + 1) := by omega
          simpa [herr] using ih hd' hlt hfuel'
    · rw [if_neg hlt]
      rfl

theorem Steady.ends_iff (h : Steady fl env b table) {st : State F} {c : Comm} (hc : st.fhsmd.comm = .map c) :
    Ends fl usage env st ↔ Enough env b table st c := by
  rw [← h.reading_ends_iff hc]
  refine ⟨And.left, fun hread => ⟨hread, fun hd => ?_⟩⟩
  obtain ⟨rounds, hsome⟩ := hread
  obtain ⟨r, hr⟩ := Option.isSome_iff_exists.1 hsome
  cases r with
  | gone => exact ⟨rounds, by simp [handle_fhsm, hr]⟩
  | ret err st' => exact ⟨rounds, by simp [handle_fhsm, hr]⟩
  | notified es st₁ =>
    obtain ⟨hsame, -⟩ := read_rounds_notified hr
    have hlong : es.length + 2 ≤ 0 + (rounds + es.length + 2) := by omega
    refine ⟨rounds + es.length + 2, ?_⟩
    rw [handle_fhsm, read_rounds_mono hr (by omega)]
    exact for_loop_ends usage env (hsame.nodaemon.trans hd) (Nat.zero_le _) hlong

/-! ### An end that is not a fault -/

variable (env) in
/-- the pointers are good, and the entries of the notification are in the mapping -/
structure Alive (es : List (Stbr Stfs)) (st : State F) : Prop where
  nodaemon : st.nodaemon = false
  lcopy : st.fhsmd.lcopy.isSome = true
  holds : Holds env es st

theorem Alive.run {es : List (Stbr Stfs)} {st : State F} (h : Alive env es st) (hmalloc : ∀ k, env.malloc k = true) {i : ℕ}
    (hi : i < es.length) : ∃ err st', au_mvdown_run usage env st i = some (err, none, st') ∧ Alive env es st' := by
  obtain ⟨t, ht⟩ := Option.isSome_iff_exists.1 h.lcopy
  obtain ⟨c, e, hc, he, -, -, hholds⟩ := h.holds.entry hi st.examined.length
  have hcases := au_mvdown_run_cases usage env h.nodaemon hc ht he
  generalize au_mvdown_run usage env st i = r at hcases
  cases hcases with
  | idle => exact ⟨_, _, rfl, h.nodaemon, h.lcopy, hholds _ rfl⟩
  | no_memory _ hm => exact absurd (hmalloc _) (Bool.eq_false_iff.1 hm)
  | forked => exact ⟨_, _, rfl, h.nodaemon, h.lcopy, hholds _ rfl⟩
  | no_fork => exact ⟨_, _, rfl, h.nodaemon, h.lcopy, hholds _ rfl⟩

theorem Alive.for_loop {es : List (Stbr Stfs)} {st : State F} (h : Alive env es st) (hmalloc : ∀ k, env.malloc k = true)
    {fuel i : ℕ} : for_loop usage env es.length fuel st i ≠ some .gone := by
  induction fuel generalizing i st with
  | zero => exact nofun
  | succ fuel ih =>
    rw [Notify.for_loop]
    by_cases hlt : i < es.length
    · rw [if_pos hlt]
      rcases fuel with _ | fuel
      · exact nofun
      obtain ⟨err, st', hrun, h'⟩ := h.run usage hmalloc hlt
      rw [while_loop, hrun]
      by_cases herr : err ≠ 0
      · simp [herr]
      · simpa [herr] using ih h'
    · rw [if_neg hlt]
      exact nofun

/-- the reading finds good pointers, and leaves a good copy -/
theorem Steady.reading_alive (h : Steady fl env b table)
    (hcreate : ∀ round, (env.reload round).comm.creates (au_fhsmd_comm_len table.nwmark) = true) {fuel : ℕ} {st : State F}
    {c : Comm} (hc : st.fhsmd.comm = .map c) (hl : st.fhsmd.lcopy.isSome = true) {r : Reading F}
    (hr : read_rounds fl env fuel st = some r) :
    r ≠ .gone ∧ ∀ es st₁, r = .notified es st₁ → st₁.fhsmd.lcopy.isSome = true := by
  induction fuel generalizing st c with
  | zero => exact absurd hr nofun
  | succ fuel ih =>
    rw [read_rounds] at hr
    have hcases := read_round_cases env fl hc
    generalize read_round fl env st = round at hcases hr
    cases hcases with
    | notified es hread =>
      obtain rfl := Option.some.inj hr
      refine ⟨nofun, fun es' st₁ heq => ?_⟩
      obtain ⟨-, rfl⟩ := Reading.notified.inj heq
      exact hl
    | error hread =>
      obtain rfl := Option.some.inj hr
      exact ⟨nofun, nofun⟩
    | gone hread hnone =>
      -- only a mapping that could not be created is fatal
      have hfhsmd := State.fhsmd_of_comm hc
      have hload := au_fhsmd_load_cases fl (env.shm st.round) (env.reload st.round) st.fhsmd.lcopy c
      rw [← hfhsmd, hnone] at hload
      cases hload with
      | lost u hshm _ _ _ _ _ hgone =>
        rw [h.shm, Option.some.injEq] at hshm
        rcases hgone with ⟨hno, -⟩ | hsome
        · rw [← hshm, hcreate] at hno
          exact absurd hno nofun
        · exact absurd hsome nofun
    | failed hread err herr fhsmd hsome =>
      obtain rfl := Option.some.inj hr
      exact ⟨nofun, nofun⟩
    | again hread fhsmd hsome =>
      have hfhsmd := State.fhsmd_of_comm hc
      rw [h.shm, hfhsmd, load_eq_zero fl _ h.verifies] at hsome
      obtain ⟨-, -, rfl⟩ := hsome
      exact ih rfl rfl hr

/-- **Handling a notification ends exactly in these cases.** For every number of branches and every table that verifies
and stays: the reading ends, and with it handle_fhsm, if and only if the branches fit into the mapping or into one for
the table, the table has become smaller, or a call of a reload fails at some time. It ends with a return if no malloc
fails and every new mapping can be created. -/
theorem rounds_end_iff (fl : Floats F) (usage : Aufhsm F → Stbr Stfs → Bool) (env : Env F) (b : ℕ) (table : Aufhsm F)
    (h : Steady fl env b table) (st : State F) (c : Comm) (hc : st.fhsmd.comm = .map c) :
    (Ends fl usage env st ↔ Enough env b table st c) ∧
      (st.nodaemon = false → st.fhsmd.lcopy.isSome = true → (∀ k, env.malloc k = true) →
        (∀ round, (env.reload round).comm.creates (au_fhsmd_comm_len table.nwmark) = true) →
        ∀ fuel, handle_fhsm fl usage env fuel st ≠ some .gone) := by
  refine ⟨h.ends_iff usage hc, fun hd hl hmalloc hcreate fuel => ?_⟩
  rw [handle_fhsm]
  cases hr : read_rounds fl env fuel st with
  | none => exact nofun
  | some r =>
    obtain ⟨hgone, hcopy⟩ := h.reading_alive hcreate hc hl hr
    cases r with
    | gone => exact absurd rfl hgone
    | ret err st' => exact nofun
    | notified es st₁ =>
      obtain ⟨hsame, hholds⟩ := read_rounds_notified hr
      exact Alive.for_loop usage ⟨hsame.nodaemon.trans hd, hcopy es st₁ rfl, hholds⟩ hmalloc

theorem plain_steady (es : List (Stbr Stfs)) (reload : ReloadSys) :
    Steady ratFloats (plain es (some twoTable) reload) es.length twoTable where
  kernel round nstbr := by
    by_cases hle : es.length ≤ nstbr
    · exact iff_of_false (by simp [plain, hle]) (not_lt.2 hle)
    · exact iff_of_true (by simp [plain, hle]) (not_le.1 hle)
  shm round := rfl
  verifies := sign_verify ratFloats _

/-- the mapping is too small for the two branches, the table is not -/
theorem rounds_end_two :
    Ends ratFloats (test_usage bridSearch) (plain nearlyFull (some twoTable) reloadOk) (waitingWith (.zeroed 1)) :=
  (rounds_end_iff ratFloats (test_usage bridSearch) (plain nearlyFull (some twoTable) reloadOk) 2 twoTable
    (plain_steady nearlyFull reloadOk) (waitingWith (.zeroed 1)) (.zeroed 1) rfl).1.2 (.inr (.inr (.inl (by decide))))

/-- a third branch was added, and aufhsm has not been run since: nothing but reading and reloading -/
theorem rounds_never_end : Steady ratFloats (plain (nearlyFull ++ [⟨2, ⟨100, 90, 100, 50⟩⟩]) (some twoTable) reloadOk) 3
    twoTable ∧ ¬ Ends ratFloats (test_usage bridSearch)
      (plain (nearlyFull ++ [⟨2, ⟨100, 90, 100, 50⟩⟩]) (some twoTable) reloadOk) (waitingWith (.zeroed 2)) := by
  have hsteady := plain_steady (nearlyFull ++ [⟨2, ⟨100, 90, 100, 50⟩⟩]) reloadOk
  refine ⟨hsteady, fun hends => ?_⟩
  rcases (hsteady.ends_iff _ (c := .zeroed 2) rfl).1 hends with hb | hfew | hb | ⟨round, -, hfail⟩
  · exact absurd hb (by decide)
  · exact absurd hfew (by decide)
  · exact absurd hb (by decide)
  · have hlen : twoTable.nwmark = 2 := by decide
    refine hfail ?_
    rw [hlen]
    exact ⟨⟨rfl, rfl, rfl, rfl, rfl, rfl⟩, rfl, rfl, rfl, rfl⟩

end Rounds

end AufsUtil.Fhsm.Notify
