/-
The fallback of pathconf(3) (`libau/pathconf.c`, open_aufs_fd): when the path itself cannot be opened, a descriptor in
the same aufs is looked for among its ancestors, path/.., path/../.. and so on.

The path is copied without its trailing slashes. The NUL then goes to `parent[l - 1]`, over the last character of the
copy, instead of behind it.

- `climb_paths`: the loop passes the copy with one more "/.." in each round, and stores only inside of its block.
- `open_aufs_fd_paths`: so its i-th path is the given one without its trailing slashes, without one more character, and
  with i times "/..".
- `climbs_to_ancestors_iff`: these are the ancestors, and nothing in front of the path is read, exactly if the climb is
  not started, or it is after EISDIR and the path has a character other than a slash.

What the model keeps of C: the block of the string with its sizes, each store checked against it; the index of the loop
that looks for the last character, which reads in front of a path of slashes; l is an int. What open(2), stat(2),
opendir(3) and the allocations do is an input. A malloc(3) that fails makes open_aufs_fd return 0, a descriptor.
-/
import Mathlib.Tactic
import Mathlib.Data.List.DropRight
import AufsUtil.Lib.Block

namespace AufsUtil.Libau

open AufsUtil.CStr AufsUtil.Block

/-! ## open_aufs_fd -/

def EPERM : ℕ := 1

def ENOMEM : ℕ := 12

def EACCES : ℕ := 13

def EISDIR : ℕ := 21

def ENOTSUP : ℕ := 95

/-- "/.." -/
def dotdot : Bytes := [47, 46, 46]

/-- what is answered for the path itself: a descriptor or errno, st_dev or errno, and the bytes of a new block -/
structure PathEnv where
  opened : Except ℕ ℤ
  opendir : Except ℕ ℤ
  stat : Except ℕ ℕ
  malloc : Option (ℕ → UInt8)

/-- what is answered in one round of the climb -/
structure Round where
  stat : Except ℕ ℕ
  opendir : Except ℕ ℤ
  realloc : Option (ℕ → UInt8)

inductive Fault where
  /-- a byte in front of the path is read -/
  | before_start
  /-- a store outside of the block -/
  | outside
deriving DecidableEq, Repr

/-- the returned value, whether `*rdp` is set, errno -/
structure Ret where
  err : ℤ
  rdp : Bool
  errno : ℕ
deriving DecidableEq, Repr

/-- what is returned, if the rounds sufficed, and the paths passed to stat(2) and to opendir(3) in the climb -/
structure Climb where
  ret : Option Ret
  stats : List Bytes
  opendirs : List Bytes
deriving DecidableEq, Repr

/-- a store that has to succeed -/
def inside (b : Option Bytes) : Except Fault Bytes :=
  match b with
  | none => .error .outside
  | some b => .ok b

/-- `while (path[l - 1] == '/') l--;` -/
def last_char (path : Bytes) : ℕ → Except Fault ℕ
  | 0 => .error .before_start
  | l + 1 => if path[l]? = some 47 then last_char path l else .ok (l + 1)

/-- `while (1)` over the rounds; base is the st_dev of the path -/
def climb (base : ℕ) : List Round → Bytes → Except Fault Climb
  | [], _ => .ok ⟨none, [], []⟩
  | r :: rs, parent => do
    let parent ← inside (strcat parent dotdot)
    let p := cstr parent 0
    match r.stat with
    | .error e => .ok ⟨some ⟨-1, false, e⟩, [p], []⟩
    | .ok st_dev =>
      if st_dev ≠ base then .ok ⟨some ⟨-1, false, ENOTSUP⟩, [p], []⟩
      else
        match r.opendir with
        | .ok fd => .ok ⟨some ⟨fd, true, ENOTSUP⟩, [p], [p]⟩
        | .error _ =>
          match r.realloc with
          | none => .ok ⟨some ⟨-1, false, ENOMEM⟩, [p], [p]⟩
          | some junk => do
            let c ← climb base rs (resize parent (strlen parent 0 + 4) junk)
            .ok ⟨c.ret, p :: c.stats, p :: c.opendirs⟩

/-- from the failed open(2) on -/
def open_ancestor (path : Bytes) (E : PathEnv) (rounds : List Round) : Except Fault Climb :=
  match E.stat with
  | .error e => .ok ⟨some ⟨-1, false, e⟩, [], []⟩
  | .ok base =>
    match E.malloc with
    -- err is still 0
    | none => .ok ⟨some ⟨0, false, ENOMEM⟩, [], []⟩
    | some junk => do
      let l ← last_char path (toInt path.length).toNat
      let parent ← inside (store (malloc (path.length + 4) junk) 0 (path.take l))
      let parent ← inside (store parent (l - 1) [0])
      climb base rounds parent

def open_aufs_fd (path : Bytes) (E : PathEnv) (rounds : List Round) : Except Fault Climb :=
  match E.opened with
  | .ok fd => .ok ⟨some ⟨fd, false, 0⟩, [], []⟩
  | .error e =>
    if e = EISDIR then
      match E.opendir with
      | .ok fd => .ok ⟨some ⟨fd, true, e⟩, [], []⟩
      | .error _ => open_ancestor path E rounds
    else if e = EACCES ∨ e = EPERM then open_ancestor path E rounds
    else .ok ⟨some ⟨-1, false, e⟩, [], []⟩

/-! ## The climb -/

/-- n times "/.." -/
def up (n : ℕ) : Bytes := (List.replicate n dotdot).flatten

theorem up_succ (n : ℕ) : up (n + 1) = dotdot ++ up n := by rw [up, List.replicate_succ, List.flatten_cons, up]

/-- the i-th path is t with i + 1 times "/.." -/
def Ascends (t : Bytes) (ps : List Bytes) : Prop := ∀ i p, ps[i]? = some p → p = t ++ up (i + 1)

theorem ascends_nil (t : Bytes) : Ascends t [] := by
  intro i p h
  simp at h

theorem ascends_cons {t p : Bytes} {ps : List Bytes} (hp : p = t ++ dotdot) (h : Ascends p ps) :
    Ascends t (p :: ps) := by
  intro i q hq
  cases i with
  | zero =>
    rw [List.getElem?_cons_zero, Option.some.injEq] at hq
    rw [← hq, hp]
    rfl
  | succ i =>
    rw [h i q hq, hp, up_succ (i + 1), List.append_assoc]

/-- **The climb from a string t.** Its block has room for "/.." and the NUL: each round puts the text in, and makes
room for the next one. -/
theorem climb_paths (base : ℕ) (rounds : List Round) : ∀ t y : Bytes, (0 : UInt8) ∉ t → 3 ≤ y.length →
    ∃ c, climb base rounds (t ++ 0 :: y) = .ok c ∧ Ascends t c.stats ∧ Ascends t c.opendirs ∧
      (rounds ≠ [] → c.stats ≠ []) := by
  induction rounds with
  | nil => exact fun t y _ _ => ⟨_, rfl, ascends_nil t, ascends_nil t, fun h => absurd rfl h⟩
  | cons r rs ih =>
    intro t y h0 hy
    have hcat : strcat (t ++ 0 :: y) dotdot = some ((t ++ dotdot) ++ 0 :: y.drop 3) := strcat_append h0 hy
    have h0' : (0 : UInt8) ∉ t ++ dotdot := by simp [h0, dotdot]
    have hone : Ascends t [t ++ dotdot] := ascends_cons rfl (ascends_nil _)
    have hne : ∀ ps : List Bytes, r :: rs ≠ [] → (t ++ dotdot) :: ps ≠ [] := fun _ _ => List.cons_ne_nil _ _
    rw [climb, hcat]
    simp only [inside, bind, Except.bind, cstr_zero _ h0', strlen_zero _ h0']
    cases r.stat with
    | error e => exact ⟨_, rfl, hone, ascends_nil t, hne _⟩
    | ok st_dev =>
      by_cases hdev : st_dev = base
      · simp only [hdev, ne_eq, not_true_eq_false, if_false]
        cases r.opendir with
        | ok fd => exact ⟨_, rfl, hone, hone, hne _⟩
        | error e =>
          cases r.realloc with
          | none => exact ⟨_, rfl, hone, hone, hne _⟩
          | some junk =>
            obtain ⟨z, hz, hlen⟩ := resize_text (n := (t ++ dotdot).length + 4) (y.drop 3) junk (Nat.le_add_right _ 3)
            obtain ⟨c, hc, hstats, hdirs, -⟩ := ih (t ++ dotdot) z h0' (by omega)
            dsimp only
            rw [hz, hc]
            exact ⟨_, rfl, ascends_cons rfl hstats, ascends_cons rfl hdirs, hne _⟩
      · simp only [ne_eq, hdev, not_false_eq_true, if_true]
        exact ⟨_, rfl, hone, ascends_nil t, hne _⟩

/-! ## The copy of the path -/

/-- where the search for the last character ends -/
theorem last_char_cases (path : Bytes) : ∀ n, n ≤ path.length →
    (last_char path n = .error .before_start ∧ ∀ c ∈ path.take n, c = 47) ∨
      ∃ l c, last_char path n = .ok (l + 1) ∧ l < n ∧ path[l]? = some c ∧ c ≠ 47 := by
  intro n
  induction n with
  | zero => exact fun _ => Or.inl ⟨rfl, by simp⟩
  | succ n ih =>
    intro hn
    have hget : path[n]? = some path[n] := List.getElem?_eq_getElem hn
    rw [last_char]
    by_cases h47 : path[n] = 47
    · rw [if_pos (by rw [hget, h47])]
      rcases ih (by omega) with ⟨herr, hall⟩ | ⟨l, c, hok, hl, hc⟩
      · refine Or.inl ⟨herr, fun c hc => ?_⟩
        rw [List.take_add_one, hget, List.mem_append] at hc
        rcases hc with hc | hc
        · exact hall c hc
        · rw [List.mem_singleton.1 hc, h47]
      · exact Or.inr ⟨l, c, hok, by omega, hc⟩
    · rw [if_neg (by rw [hget, Option.some.injEq]; exact h47)]
      exact Or.inr ⟨n, path[n], rfl, Nat.lt_succ_self n, hget, h47⟩

/-- the path without its trailing slashes -/
def no_trailing (path : Bytes) : Bytes := path.rdropWhile (· = 47)

/-- a character that is not a slash stands in front of the trailing slashes -/
theorem lt_no_trailing {path : Bytes} {l : ℕ} {c : UInt8} (hl : path[l]? = some c) (hc : c ≠ 47) :
    l < (no_trailing path).length := by
  induction path using List.reverseRecOn with
  | nil => simp at hl
  | append_singleton path d ih =>
    rw [no_trailing]
    by_cases hd : d = 47
    · rw [List.rdropWhile_concat_pos _ _ _ (by simpa using hd)]
      refine ih ?_
      rcases lt_or_ge l path.length with hlt | hge
      · rwa [List.getElem?_append_left hlt] at hl
      · rw [List.getElem?_append_right hge, List.getElem?_singleton] at hl
        split_ifs at hl
        exact absurd ((Option.some.inj hl).symm.trans hd) hc
    · rw [List.rdropWhile_concat_neg _ _ _ (by simpa using hd)]
      exact (List.getElem?_eq_some_iff.1 hl).1

/-- the search goes back over the trailing slashes -/
theorem last_char_slashes {t : Bytes} {c : UInt8} (hc : c ≠ 47) :
    ∀ k, last_char (t ++ [c] ++ List.replicate k 47) (t.length + 1 + k) = .ok (t.length + 1) := by
  have hend : ∀ k, (t ++ [c] ++ List.replicate k 47)[t.length]? = some c := by simp
  have hslash : ∀ k m, k < m → (t ++ [c] ++ List.replicate m 47)[t.length + 1 + k]? = some 47 := by
    intro k m hk
    rw [List.getElem?_append_right (by simp), List.getElem?_replicate]
    simpa using hk
  have hback : ∀ m k, k ≤ m → last_char (t ++ [c] ++ List.replicate m 47) (t.length + 1 + k) = .ok (t.length + 1) := by
    intro m k
    induction k with
    | zero =>
      intro _
      rw [Nat.add_zero, last_char, if_neg (by rw [hend, Option.some.injEq]; exact hc)]
    | succ k ih =>
      intro hk
      rw [← Nat.add_assoc, last_char, if_pos (hslash k m hk)]
      exact ih (by omega)
  exact fun k => hback k k le_rfl

/-- the copy: its last character is overwritten by the NUL -/
theorem open_ancestor_paths {path : Bytes} {E : PathEnv} {base l : ℕ} {junk : ℕ → UInt8} (hz : (0 : UInt8) ∉ path)
    (hstat : E.stat = .ok base) (hmalloc : E.malloc = some junk)
    (hlast : last_char path (toInt path.length).toNat = .ok (l + 1)) (hl : l < path.length) (rounds : List Round) :
    ∃ c, open_ancestor path E rounds = .ok c ∧ Ascends (path.take l) c.stats ∧ Ascends (path.take l) c.opendirs ∧
      (rounds ≠ [] → c.stats ≠ []) := by
  have htake : path.take (l + 1) = path.take l ++ [path[l]] := List.take_succ_eq_append_getElem hl
  have hblock := length_malloc (path.length + 4) junk
  have hcopy : store (malloc (path.length + 4) junk) 0 (path.take (l + 1)) =
      some (path.take (l + 1) ++ (malloc (path.length + 4) junk).drop (l + 1)) := by
    have hstore := store_append (x := []) (y := malloc (path.length + 4) junk) (s := path.take (l + 1))
      (by rw [hblock, List.length_take]; omega)
    rwa [List.length_take, Nat.min_eq_left (by omega), List.nil_append, List.nil_append, List.length_nil] at hstore
  have hnul : ∀ z, store (path.take (l + 1) ++ z) l [0] = some (path.take l ++ 0 :: z) := by
    intro z
    have hstore := store_append (x := path.take l) (y := path[l] :: z) (s := [0]) (by simp)
    rw [List.length_take, Nat.min_eq_left (by omega)] at hstore
    rw [htake, List.append_assoc, List.singleton_append, hstore]
    simp
  have hcl := climb_paths base rounds (path.take l) ((malloc (path.length + 4) junk).drop (l + 1))
    (fun h => hz (List.mem_of_mem_take h)) (by rw [List.length_drop, hblock]; omega)
  have hopen : open_ancestor path E rounds =
      climb base rounds (path.take l ++ 0 :: (malloc (path.length + 4) junk).drop (l + 1)) := by
    rw [open_ancestor, hstat, hmalloc]
    dsimp only
    rw [hlast, ok_bind, hcopy, inside, ok_bind, Nat.add_sub_cancel, hnul, inside, ok_bind]
  rw [hopen]
  exact hcl

/-! ## What is climbed -/

/-- open(2) failed as for an unreadable file, stat(2) and malloc(3) did not -/
def Climbing (E : PathEnv) : Prop :=
  (E.opened = .error EACCES ∨ E.opened = .error EPERM ∨ (E.opened = .error EISDIR ∧ ∃ e, E.opendir = .error e)) ∧
    (∃ base, E.stat = .ok base) ∧ ∃ junk, E.malloc = some junk

theorem open_aufs_fd_climbing {path : Bytes} {E : PathEnv} (h : Climbing E) (rounds : List Round) :
    open_aufs_fd path E rounds = open_ancestor path E rounds := by
  rcases h.1 with h | h | ⟨h, e, hdir⟩
  · rw [open_aufs_fd, h]
    rfl
  · rw [open_aufs_fd, h]
    rfl
  · simp [open_aufs_fd, h, hdir]

theorem open_aufs_fd_other (path : Bytes) {E : PathEnv} (h : ¬ Climbing E) (rounds : List Round) :
    ∃ ret, open_aufs_fd path E rounds = .ok ⟨ret, [], []⟩ := by
  have hother : (E.opened = .error EACCES ∨ E.opened = .error EPERM ∨
      (E.opened = .error EISDIR ∧ ∃ e, E.opendir = .error e)) →
    ∃ ret, open_ancestor path E rounds = .ok ⟨ret, [], []⟩ := by
    intro hopen
    rw [open_ancestor]
    cases hstat : E.stat with
    | error e => exact ⟨_, rfl⟩
    | ok base =>
      cases hmalloc : E.malloc with
      | none => exact ⟨_, rfl⟩
      | some junk => exact absurd ⟨hopen, ⟨base, hstat⟩, junk, hmalloc⟩ h
  rw [open_aufs_fd]
  cases hopen : E.opened with
  | ok fd => exact ⟨_, rfl⟩
  | error e =>
    dsimp only
    split_ifs with hdir hacc
    · cases hod : E.opendir with
      | ok fd => exact ⟨_, rfl⟩
      | error e' => exact hother (Or.inr (Or.inr ⟨hdir ▸ hopen, e', hod⟩))
    · rcases hacc with rfl | rfl
      · exact hother (Or.inl hopen)
      · exact hother (Or.inr (Or.inl hopen))
    · exact ⟨_, rfl⟩

theorem toInt_toNat_le (n : ℕ) : (toInt n).toNat ≤ n := by
  unfold toInt
  omega

/-- once the climb is reached: a read in front of the path, or a climb from a text that is too short -/
theorem climbing_cases {path : Bytes} {E : PathEnv} (hz : (0 : UInt8) ∉ path) (h : Climbing E) :
    ((∀ c ∈ path.take (toInt path.length).toNat, c = 47) ∧
        ∀ rounds, open_aufs_fd path E rounds = .error .before_start) ∨
      ((∃ c ∈ path.take (toInt path.length).toNat, c ≠ 47) ∧ ∃ l, l < (no_trailing path).length ∧
        ∀ rounds, ∃ c, open_aufs_fd path E rounds = .ok c ∧ Ascends (path.take l) c.stats ∧
          Ascends (path.take l) c.opendirs ∧ (rounds ≠ [] → c.stats ≠ [])) := by
  obtain ⟨-, ⟨base, hstat⟩, junk, hmalloc⟩ := id h
  rcases last_char_cases path _ (toInt_toNat_le path.length) with ⟨herr, hall⟩ | ⟨l, c, hok, hl, hc, hne⟩
  · refine Or.inl ⟨hall, fun rounds => ?_⟩
    rw [open_aufs_fd_climbing h, open_ancestor, hstat, hmalloc]
    dsimp only
    rw [herr]
    rfl
  · have hlen := (List.getElem?_eq_some_iff.1 hc).1
    refine Or.inr ⟨⟨c, ?_, hne⟩, l, lt_no_trailing hc hne, fun rounds => ?_⟩
    · exact List.mem_of_getElem? ((List.getElem?_take_of_lt hl).trans hc)
    · rw [open_aufs_fd_climbing h]
      exact open_ancestor_paths hz hstat hmalloc hok hlen rounds

/-- The i-th path of the climb is the path without its trailing slashes and i times "/..", the stores are inside of the
block, for an unreadable file; and for every path nothing in front of it is read. -/
def ClimbsToAncestors (path : Bytes) (E : PathEnv) : Prop :=
  (∀ rounds, open_aufs_fd path E rounds ≠ .error .before_start) ∧
    ((∃ c ∈ path, c ≠ 47) → (E.opened = .error EACCES ∨ E.opened = .error EPERM) →
      ∀ rounds, ∃ c, open_aufs_fd path E rounds = .ok c ∧ Ascends (no_trailing path) c.stats ∧
        Ascends (no_trailing path) c.opendirs)

/-- **The climb goes to other places** whenever it is reached by EACCES or EPERM. After EISDIR it is not promised where
it goes, and a path of slashes is read in front of its start. -/
theorem climbs_to_ancestors_iff (path : Bytes) (E : PathEnv) (hz : (0 : UInt8) ∉ path) :
    ClimbsToAncestors path E ↔
      (Climbing E → E.opened = .error EISDIR ∧ ∃ c ∈ path.take (toInt path.length).toNat, c ≠ 47) := by
  constructor
  · rintro ⟨hbefore, hpaths⟩ hcl
    rcases climbing_cases hz hcl with ⟨-, hfault⟩ | ⟨⟨c, hc, hne⟩, l, hl, hrun⟩
    · exact absurd (hfault []) (hbefore [])
    · refine ⟨?_, c, hc, hne⟩
      by_contra hdir
      have hacc : E.opened = .error EACCES ∨ E.opened = .error EPERM := by
        rcases hcl.1 with h | h | h
        · exact Or.inl h
        · exact Or.inr h
        · exact absurd h.1 hdir
      -- a climb of one round
      obtain ⟨a, ha, hstats, -⟩ := hpaths ⟨c, List.mem_of_mem_take hc, hne⟩ hacc [⟨.error 0, .error 0, none⟩]
      obtain ⟨b, hb, hcut, -, hsome⟩ := hrun [⟨.error 0, .error 0, none⟩]
      obtain rfl : a = b := Except.ok.inj (ha.symm.trans hb)
      obtain ⟨p, ps, hps⟩ := List.exists_cons_of_ne_nil (hsome (List.cons_ne_nil _ _))
      have hsame : path.take l ++ up 1 = no_trailing path ++ up 1 :=
        (hcut 0 p (by rw [hps]; rfl)).symm.trans (hstats 0 p (by rw [hps]; rfl))
      have hlen := congrArg List.length (List.append_cancel_right hsame)
      rw [List.length_take] at hlen
      omega
  · intro h
    by_cases hcl : Climbing E
    · obtain ⟨hdir, c, hc, hne⟩ := h hcl
      refine ⟨fun rounds => ?_, fun _ hacc => ?_⟩
      · rcases climbing_cases hz hcl with ⟨hall, -⟩ | ⟨-, l, -, hrun⟩
        · exact absurd (hall c hc) hne
        · obtain ⟨a, ha, -⟩ := hrun rounds
          rw [ha]
          simp
      · rw [hdir] at hacc
        rcases hacc with h | h
        · exact absurd (Except.error.inj h) (by decide)
        · exact absurd (Except.error.inj h) (by decide)
    · refine ⟨fun rounds => ?_, fun _ _ rounds => ?_⟩
      · obtain ⟨ret, hret⟩ := open_aufs_fd_other path hcl rounds
        rw [hret]
        simp
      · obtain ⟨ret, hret⟩ := open_aufs_fd_other path hcl rounds
        exact ⟨_, hret, ascends_nil _, ascends_nil _⟩

/-- **Where the climb goes.** An unreadable file with a name: the last character of the path is lost. -/
theorem open_aufs_fd_paths {t : Bytes} {c : UInt8} {k : ℕ} {E : PathEnv} (hc : c ≠ 47)
    (hz : (0 : UInt8) ∉ t ++ [c] ++ List.replicate k 47) (hlen : t.length + 1 + k < 2 ^ 31) (h : Climbing E)
    (rounds : List Round) :
    ∃ a, open_aufs_fd (t ++ [c] ++ List.replicate k 47) E rounds = .ok a ∧ Ascends t a.stats ∧
      Ascends t a.opendirs := by
  obtain ⟨-, ⟨base, hstat⟩, junk, hmalloc⟩ := id h
  have hlength : (t ++ [c] ++ List.replicate k 47).length = t.length + 1 + k := by
    rw [List.length_append, List.length_append, List.length_singleton, List.length_replicate]
  have hint : (toInt (t.length + 1 + k : ℕ)).toNat = t.length + 1 + k := by
    rw [toInt_of_lt (by omega) (by omega), Int.toNat_natCast]
  have hlast : last_char (t ++ [c] ++ List.replicate k 47) (toInt (t ++ [c] ++ List.replicate k 47).length).toNat =
      .ok (t.length + 1) := by
    rw [hlength, hint]
    exact last_char_slashes hc k
  obtain ⟨a, ha, hstats, hdirs, -⟩ := open_ancestor_paths hz hstat hmalloc hlast (by omega) rounds
  rw [List.append_assoc, List.take_left] at hstats hdirs
  rw [open_aufs_fd_climbing h]
  exact ⟨a, ha, hstats, hdirs⟩

/-- "/a" is a directory that cannot be opened -/
def closedDir : PathEnv := ⟨.error EISDIR, .error EACCES, .ok 1, some fun _ => 0⟩

/-- the climb from it goes one round, and has a descriptor then -/
theorem climbs_to_ancestors_dir : ClimbsToAncestors [47, 97] closedDir ∧
    open_aufs_fd [47, 97] closedDir [⟨.ok 1, .ok 3, none⟩] =
      .ok ⟨some ⟨3, true, ENOTSUP⟩, [[47, 47, 46, 46]], [[47, 47, 46, 46]]⟩ :=
  ⟨(climbs_to_ancestors_iff _ _ (by decide)).2 fun _ => ⟨rfl, 97, by decide, by decide⟩, by decide +kernel⟩

/-- "/a/b" is unreadable: "/a//.." is tried, which is "/" and not "/a" -/
theorem climb_cuts_name :
    ¬ ClimbsToAncestors [47, 97, 47, 98] ⟨.error EACCES, .error EACCES, .ok 1, some fun _ => 0⟩ := by
  intro h
  obtain ⟨c, hc, hstats, -⟩ := h.2 ⟨97, by decide, by decide⟩ (Or.inl rfl) [⟨.error 0, .error 0, none⟩]
  have hrun : open_aufs_fd [47, 97, 47, 98] ⟨.error EACCES, .error EACCES, .ok 1, some fun _ => 0⟩
      [⟨.error 0, .error 0, none⟩] = .ok ⟨some ⟨-1, false, 0⟩, [[47, 97, 47, 47, 46, 46]], []⟩ := by decide +kernel
  obtain rfl : c = _ := Except.ok.inj (hc.symm.trans hrun)
  exact absurd (hstats 0 _ rfl) (by decide)

end AufsUtil.Libau
