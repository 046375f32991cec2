/-
Moving a branch down in aubrsync (`aubrsync`: FindForRm, copy, _move, move). rsync(1) makes the destination a mirror of
the union, then find(1) and rm(1) empty the source.

- `move_preserves_iff`: after a move the union shows what it showed before exactly if no directory had to be kept for
  its lost+found, and no branch below shows what the two branches had hidden. For two branches the second is no
  condition: the whiteouts of both are gone, but nothing is left that they hid.
- `remove_shows_iff`: while the source is emptied, a name is lost that is gone from a directory that is still closed, or
  still hidden.

What the model keeps: the tests of find(1) on the names; a branch with its whiteouts and opaque directories, in the
words of aufs(5), looked up only in a branch with "wh" (or "rw"); the excluded lost+found, at any depth. An entry beside
its own whiteout, which aufs(5) only says is not handled correctly, is shown. What rsync(1) and rm(1) do is taken from
their manuals, rsync as what it has made in the end (`Mirrored`): without -I it compares size and time, so the contents
are those. A branch is one filesystem (-xdev, -x); the mount is read-only meanwhile.
-/
import Mathlib.Tactic
import AufsUtil.Lib.Union
import AufsUtil.Tools.Aubrsync

namespace AufsUtil.Aubrsync

open AufsUtil.CStr AufsUtil.Union

variable {C : Type}

/-! ## Branches -/

/-- ".wh..wh..opq" -/
def AUFS_WH_DIROPQ : Bytes := AUFS_WH_PFX2 ++ [46, 111, 112, 113]

def lost_found : Bytes := [108, 111, 115, 116, 43, 102, 111, 117, 110, 100]

/-- a directory tree; a path is its names, the last one first -/
structure Tree (C : Type) where
  node : List Bytes → Option (Node C)
  closed : Closed node

/-- what a list of paths has at a path -/
def find (l : List (List Bytes × Node C)) (p : List Bytes) : Option (Node C) :=
  if p = [] then some .dir else l.lookup p

theorem find_ne_none {l : List (List Bytes × Node C)} {p : List Bytes} (h : find l p ≠ none) :
    p = [] ∨ ∃ x, (p, x) ∈ l := by
  by_cases hp : p = []
  · exact Or.inl hp
  · rw [find, if_neg hp] at h
    obtain ⟨x, hx⟩ := Option.ne_none_iff_exists'.1 h
    obtain ⟨l₁, l₂, rfl, -⟩ := List.lookup_eq_some_iff.1 hx
    exact Or.inr ⟨x, by simp⟩

/-- the tree of some paths -/
def Tree.of (l : List (List Bytes × Node C)) (h : ∀ e ∈ l, find l e.1.tail = some .dir) : Tree C where
  node := find l
  closed := {
    root := rfl
    parent := fun n d hne => by
      obtain hnil | ⟨x, hx⟩ := find_ne_none hne
      · exact absurd hnil (List.cons_ne_nil n d)
      · exact h _ hx }

/-- not reserved for aufs -/
def plain (n : Bytes) : Bool := !AUFS_WH_PFX.isPrefixOf n

def is_file : Option (Node C) → Bool
  | some (.leaf _) => true
  | _ => false

/-- a branch of the union, with or without whiteouts -/
def Tree.layer (wh : Bool) (t : Tree C) : Layer Bytes C where
  node p := if p.all plain then t.node p else none
  hides d n := wh && plain n && is_file (t.node ((AUFS_WH_PFX ++ n) :: d))
  opq d := wh && is_file (t.node (AUFS_WH_DIROPQ :: d))

def layers (bs : List (Bool × Tree C)) : List (Layer Bytes C) := bs.map fun b => b.2.layer b.1

/-- what the mount shows -/
def union (bs : List (Bool × Tree C)) : List Bytes → Option (Node C) := view (layers bs)

theorem layer_node {p : List Bytes} (hp : p.all plain) (wh : Bool) (t : Tree C) : (t.layer wh).node p = t.node p :=
  if_pos hp

theorem layer_closed (wh : Bool) (t : Tree C) : Closed (t.layer wh).node where
  root := t.closed.root
  parent n d h := by
    by_cases hp : (n :: d).all plain
    · rw [layer_node hp] at h
      rw [layer_node (Bool.and_eq_true_iff.1 hp).2, t.closed.parent n d h]
    · exact absurd (if_neg hp) h

theorem union_plain {bs : List (Bool × Tree C)} {p : List Bytes} (h : union bs p ≠ none) : p.all plain := by
  cases p with
  | nil => rfl
  | cons n d =>
    obtain ⟨l, hl, hne⟩ := view_ne_none h
    obtain ⟨b, -, rfl⟩ := List.mem_map.1 hl
    by_contra hp
    exact hne (if_neg hp)

/-! ## The commands -/

/-- the paths that find(1) prints for rm(1) -/
def FindForRm (t : Tree C) : List Bytes → Bool
  | [] => false
  | n :: d =>
    match t.node (n :: d) with
    | none => false
    | some .dir => !AUFS_WH_PFX2.isPrefixOf n && !((n :: d) == [lost_found])
    | some (.leaf _) => n == AUFS_WH_DIROPQ || !AUFS_WH_PFX2.isPrefixOf n

/-- `xargs -r0 rm -fr`, with all that find(1) prints -/
def Tree.emptied (t : Tree C) : Tree C where
  node p := if p.tails.any (FindForRm t) then none else t.node p
  closed := {
    root := t.closed.root
    parent := fun n d h => by
      rw [List.tails_cons, List.any_cons] at h
      by_cases hd : d.tails.any (FindForRm t)
      · rw [hd, Bool.or_true] at h
        exact absurd (if_pos rfl) h
      · rw [if_neg hd]
        refine t.closed.parent n d fun hnone => h ?_
        rw [hnone, ite_self] }

/-- this directory cannot be deleted -/
def Kept (t : Tree C) (p : List Bytes) : Prop :=
  t.node p = some .dir ∧ ∃ q, p <:+ q ∧ lost_found ∈ q ∧ t.node q ≠ none

/-- rsync(1) with -a, --delete-before and --exclude=lost+found makes t' of t and has had no error -/
structure Mirrored (V : List Bytes → Option (Node C)) (t t' : Tree C) : Prop where
  excluded : ∀ p, lost_found ∈ p → t'.node p = t.node p
  copied : ∀ p x, lost_found ∉ p → V p = some x → t'.node p = some x
  deleted : ∀ p, lost_found ∉ p → V p = none → ¬Kept t p → t'.node p = none
  kept : ∀ p, lost_found ∉ p → V p = none → Kept t p → t'.node p = some .dir

/-! ## Outside of lost+found -/

def outside (n : Bytes) : Bool := n != lost_found

theorem all_outside {p : List Bytes} : p.all outside = true ↔ lost_found ∉ p := by
  rw [List.all_eq_true]
  exact ⟨fun h hmem => bne_iff_ne.1 (h _ hmem) rfl, fun h n hn => bne_iff_ne.2 fun heq => h (heq ▸ hn)⟩

theorem plain_pfx2 {n : Bytes} (h : plain n = true) : AUFS_WH_PFX2.isPrefixOf n = false := by
  rw [Bool.eq_false_iff]
  intro hpre
  have hpfx : AUFS_WH_PFX <+: n := (List.prefix_append _ _).trans (List.isPrefixOf_iff_prefix.1 hpre)
  rw [plain, List.isPrefixOf_iff_prefix.2 hpfx] at h
  exact absurd h (by decide)

theorem wh_pfx2 {n : Bytes} (h : plain n = true) : AUFS_WH_PFX2.isPrefixOf (AUFS_WH_PFX ++ n) = false := by
  rw [Bool.eq_false_iff]
  intro hpre
  have hpfx : AUFS_WH_PFX <+: n := (List.prefix_append_right_inj _).1 (List.isPrefixOf_iff_prefix.1 hpre)
  rw [plain, List.isPrefixOf_iff_prefix.2 hpfx] at h
  exact absurd h (by decide)

/-- what rm(1) leaves in the root -/
theorem emptied_root {t : Tree C} {n : Bytes} (hpre : AUFS_WH_PFX2.isPrefixOf n = false) (hn : n ≠ lost_found) :
    t.emptied.node [n] = none := by
  have hfind : t.node [n] ≠ none → FindForRm t [n] = true := by
    intro hne
    rw [FindForRm]
    cases hnode : t.node [n] with
    | none => exact absurd hnode hne
    | some x => cases x <;> simp [hpre, hn]
  by_cases hne : t.node [n] = none
  · exact (ite_eq_left_iff.2 fun _ => hne)
  · exact if_pos (by rw [List.tails_cons, List.any_cons, hfind hne, Bool.true_or])

theorem emptied_empty (wh : Bool) (t : Tree C) : ((t.emptied.layer wh).restrict outside).Empty := by
  intro n
  constructor
  · by_cases hout : [n].all outside
    · rw [restrict_node hout]
      by_cases hplain : [n].all plain
      · rw [layer_node hplain]
        exact emptied_root (plain_pfx2 (by simpa using hplain)) fun heq => all_outside.1 hout (by rw [heq]; simp)
      · exact if_neg hplain
    · exact if_neg hout
  · by_cases hplain : plain n = true
    · have hne : AUFS_WH_PFX ++ n ≠ lost_found := fun heq =>
        absurd (congrArg List.head? heq) (by simp [AUFS_WH_PFX, lost_found])
      have hnone := emptied_root (t := t) (wh_pfx2 hplain) hne
      simp [Layer.restrict, Tree.layer, hnone, is_file]
    · simp [Layer.restrict, Tree.layer, hplain]

/-- the shown part that rsync(1) does not exclude -/
def shown (V : List Bytes → Option (Node C)) (p : List Bytes) : Option (Node C) := if p.all outside then V p else none

theorem shown_closed {V : List Bytes → Option (Node C)} (hV : Closed V) : Closed (shown V) where
  root := hV.root
  parent n d h := by
    by_cases hp : (n :: d).all outside
    · rw [shown, if_pos hp] at h
      rw [shown, if_pos (Bool.and_eq_true_iff.1 hp).2, hV.parent n d h]
    · exact absurd (if_neg hp) h

/-- two mounts show the same outside of lost+found -/
theorem shown_eq_iff (bs : List (Bool × Tree C)) (V : List Bytes → Option (Node C)) :
    (∀ p, lost_found ∉ p → union bs p = V p) ↔
      ∀ p, view ((layers bs).map (Layer.restrict outside)) p = shown V p := by
  constructor
  · intro h p
    by_cases hp : p.all outside
    · rw [view_restrict _ hp, shown, if_pos hp]
      exact h p (all_outside.1 hp)
    · rw [view_restrict_none _ hp, shown, if_neg hp]
  · intro h p hp
    have hview := h p
    rwa [view_restrict _ (all_outside.2 hp), shown, if_pos (all_outside.2 hp)] at hview

/-! ## The mirror -/

section Mirror

variable {bs : List (Bool × Tree C)} {dst dst' : Tree C}

/-- no whiteout and no opaque directory is left -/
theorem mirrored_reserved (h : Mirrored (union bs) dst dst') {n : Bytes} {d : List Bytes} (hlf : lost_found ∉ n :: d)
    (hn : plain n = false) : is_file (dst'.node (n :: d)) = false := by
  have hnone : union bs (n :: d) = none := by
    by_contra hne
    have hplain := (Bool.and_eq_true_iff.1 (union_plain hne)).1
    exact absurd (hplain.symm.trans hn) Bool.true_eq_false_eq_False.elim
  by_cases hkept : Kept dst (n :: d)
  · rw [h.kept _ hlf hnone hkept]
    rfl
  · rw [h.deleted _ hlf hnone hkept]
    rfl

theorem plain_wh (n : Bytes) : plain (AUFS_WH_PFX ++ n) = false := by
  rw [plain, List.isPrefixOf_iff_prefix.2 (List.prefix_append _ _)]
  rfl

theorem lost_found_cons {n : Bytes} {d : List Bytes} (hn : plain n = false) (hd : lost_found ∉ d) :
    lost_found ∉ n :: d := by
  rw [List.mem_cons, not_or]
  exact ⟨fun heq => absurd (heq ▸ hn : plain lost_found = false) (by decide), hd⟩

theorem mirrored_hides (h : Mirrored (union bs) dst dst') (a : Bool) {d : List Bytes} (hd : lost_found ∉ d)
    (n : Bytes) : (dst'.layer a).hides d n = false := by
  have hfile := mirrored_reserved h (lost_found_cons (plain_wh n) hd) (plain_wh n)
  simp [Tree.layer, hfile]

theorem mirrored_open (h : Mirrored (union bs) dst dst') (a : Bool) {d : List Bytes} (hd : lost_found ∉ d) :
    ((dst'.layer a).restrict outside).Open d := by
  intro e he _
  have hopq : plain AUFS_WH_DIROPQ = false := by decide
  have hfile := mirrored_reserved h (lost_found_cons hopq fun hmem => hd (he.subset hmem)) hopq
  simp [Layer.restrict, Tree.layer, hfile]

/-- what is shown is copied -/
theorem mirrored_copied (h : Mirrored (union bs) dst dst') (a : Bool) {p : List Bytes}
    (hp : shown (union bs) p ≠ none) : ((dst'.layer a).restrict outside).node p = shown (union bs) p := by
  by_cases hout : p.all outside
  · rw [shown, if_pos hout] at hp ⊢
    rw [restrict_node hout, layer_node (union_plain hp)]
    obtain ⟨x, hx⟩ := Option.ne_none_iff_exists'.1 hp
    rw [h.copied p x (all_outside.1 hout) hx, hx]
  · exact absurd (if_neg hout) hp

/-- and nothing else, but for the directories that cannot be deleted -/
theorem mirrored_exact_iff (h : Mirrored (union bs) dst dst') (a : Bool) :
    (∀ p, ((dst'.layer a).restrict outside).node p = shown (union bs) p) ↔
      ∀ p, p.all plain → lost_found ∉ p → union bs p = none → ¬Kept dst p := by
  constructor
  · intro hexact p hplain hlf hnone hkept
    have hnode := hexact p
    rw [restrict_node (all_outside.2 hlf), layer_node hplain, h.kept p hlf hnone hkept, shown,
      if_pos (all_outside.2 hlf), hnone] at hnode
    exact Option.some_ne_none _ hnode
  · intro hkept p
    by_cases hp : shown (union bs) p = none
    · rw [hp]
      by_cases hout : p.all outside
      · rw [shown, if_pos hout] at hp
        have hlf := all_outside.1 hout
        by_cases hplain : p.all plain
        · rw [restrict_node hout, layer_node hplain, h.deleted p hlf hp (hkept p hplain hlf hp)]
        · rw [restrict_node hout]
          exact if_neg hplain
      · exact if_neg hout
    · exact mirrored_copied h a hp

end Mirror

/-! ## Moving -/

/-- **Move**: with the source emptied and the destination a mirror, the mount shows what it showed exactly if no
directory was kept for its lost+found, and none of the branches below shows what was hidden. -/
theorem move_preserves_iff {src dst dst' : Tree C} (a : Bool) (low : List (Bool × Tree C))
    (h : Mirrored (union ((true, src) :: (a, dst) :: low)) dst dst') :
    (∀ p, lost_found ∉ p →
      union ((true, src.emptied) :: (a, dst') :: low) p = union ((true, src) :: (a, dst) :: low) p) ↔
      (∀ p, p.all plain → lost_found ∉ p → union ((true, src) :: (a, dst) :: low) p = none → ¬Kept dst p) ∧
      ∀ n d, lost_found ∉ n :: d → union ((true, src) :: (a, dst) :: low) d = some .dir →
        union ((true, src) :: (a, dst) :: low) (n :: d) = none → union low (n :: d) = none := by
  set V := union ((true, src) :: (a, dst) :: low) with hV
  set T := (dst'.layer a).restrict outside with hT
  have hempty : ∀ p, view ((layers ((true, src.emptied) :: (a, dst') :: low)).map (Layer.restrict outside)) p =
      view (T :: (layers low).map (Layer.restrict outside)) p := fun p => view_empty (emptied_empty true src) _ p
  rw [shown_eq_iff]
  simp only [hempty]
  have hcopied : ∀ p, shown V p ≠ none → T.node p = shown V p := fun p hp => mirrored_copied h a hp
  have hT_closed : Closed T.node := restrict_closed (layer_closed a dst')
  have hV_closed : Closed (shown V) := shown_closed (view_closed _)
  rw [view_eq_top_iff hT_closed _ hV_closed hcopied, mirrored_exact_iff h a]
  refine and_congr_right fun _ => ?_
  have hbelow : ∀ n d, shown V d = some .dir → (n :: d).all outside → (T.hides d n = true ∨
      first n d (under T ((layers low).map (Layer.restrict outside)) d) = none ↔ union low (n :: d) = none) := by
    intro n d hd hout
    have hlf : lost_found ∉ d := fun hmem => all_outside.1 hout (List.mem_cons_of_mem n hmem)
    have hhides : T.hides d n = false := by
      rw [hT, restrict_hides (Bool.and_eq_true_iff.1 hout).1, mirrored_hides h a hlf n]
    have hview := view_restrict (layers low) hout
    rw [view] at hview
    rw [hhides, under_eq_stack _ (mirrored_open h a hlf), hview]
    simp [union]
  constructor
  · intro hall n d hlf hd hnone
    have hout := all_outside.2 hlf
    have hdir : shown V d = some .dir := by rw [shown, if_pos (Bool.and_eq_true_iff.1 hout).2, hd]
    exact (hbelow n d hdir hout).1 (hall n d hdir (by rw [shown, if_pos hout, hnone]))
  · intro hall n d hd hnone
    by_cases hout : (n :: d).all outside
    · have hdout : d.all outside = true := (Bool.and_eq_true_iff.1 hout).2
      rw [shown, if_pos hdout] at hd
      rw [shown, if_pos hout] at hnone
      exact (hbelow n d (by rw [shown, if_pos hdout, hd]) hout).2 (hall n d (all_outside.1 hout) hd hnone)
    · right
      by_contra hne
      obtain ⟨l, hl, hnode⟩ := first_ne_none hne
      obtain ⟨l, -, rfl⟩ := List.mem_map.1 (mem_of_mem_under hl)
      exact hnode (if_neg hout)

/-- an empty directory -/
def bare : Tree Unit := Tree.of [] (by decide)

theorem bare_node {p : List Bytes} (hp : p ≠ []) : bare.node p = none := if_neg hp

/-- an empty destination has nothing that is kept -/
theorem bare_kept {V : List Bytes → Option (Node Unit)} (hV : Closed V) {p : List Bytes} (hnone : V p = none) :
    ¬Kept bare p := by
  intro hkept
  by_cases hp : p = []
  · exact Option.some_ne_none _ (hV.root.symm.trans (hp ▸ hnone))
  · exact Option.some_ne_none _ (hkept.1.symm.trans (bare_node hp))

/-- a file in the root -/
def single (n : Bytes) : Tree Unit := Tree.of [([n], .leaf ())] (by simp [find])

theorem single_node {n : Bytes} {p : List Bytes} (hp : p ≠ []) (hn : p ≠ [n]) : (single n).node p = none := by
  by_contra hne
  obtain hnil | ⟨x, hx⟩ := find_ne_none hne
  · exact hp hnil
  · exact hn (by simpa using congrArg Prod.fst (List.mem_singleton.1 hx))

/-- the source has the file a, the destination hides the file x of the branch below by .wh.x -/
def held : List (Bool × Tree Unit) :=
  [(true, single [97]), (true, single (AUFS_WH_PFX ++ [120])), (false, single [120])]

theorem held_node {p : List Bytes} (hp : p ≠ []) (ha : p ≠ [[97]]) : union held p = none := by
  by_cases hx : p = [[120]]
  · subst hx
    decide
  · by_contra hne
    have hplain := union_plain hne
    obtain ⟨n, d, rfl⟩ := List.exists_cons_of_ne_nil hp
    obtain ⟨l, hl, hnode⟩ := view_ne_none hne
    simp only [held, layers, List.map_cons, List.map_nil, List.mem_cons, List.not_mem_nil, or_false] at hl
    rcases hl with rfl | rfl | rfl <;> rw [layer_node hplain] at hnode
    · exact hnode (single_node hp ha)
    · refine hnode (single_node hp fun heq => ?_)
      rw [heq] at hplain
      exact absurd hplain (by decide)
    · exact hnode (single_node hp hx)

theorem held_mirrored : Mirrored (union held) (single (AUFS_WH_PFX ++ [120])) (single [97]) where
  excluded p hp := by
    have hne : p ≠ [] := fun hnil => absurd (hnil ▸ hp) List.not_mem_nil
    have hout : ∀ n : Bytes, lost_found ≠ n → p ≠ [n] := by
      rintro n hn rfl
      exact hn (List.mem_singleton.1 hp)
    exact (single_node hne (hout _ (by decide))).trans (single_node hne (hout _ (by decide))).symm
  copied p x _ hx := by
    by_cases hp : p = []
    · rw [← hx, hp]
      rfl
    · by_cases ha : p = [[97]]
      · rw [← hx, ha]
        decide
      · rw [held_node hp ha] at hx
        exact absurd hx.symm (Option.some_ne_none x)
  deleted p _ hnone _ := by
    by_cases hp : p = []
    · rw [hp] at hnone
      exact absurd hnone (Option.some_ne_none _)
    · refine single_node hp fun ha => ?_
      rw [ha] at hnone
      exact absurd hnone (by decide)
  kept p _ hnone hkept := by
    by_cases hp : p = []
    · rw [hp] at hnone
      exact absurd hnone (Option.some_ne_none _)
    · by_cases hx : p = [AUFS_WH_PFX ++ [120]]
      · rw [hx] at hkept
        exact absurd hkept.1 (by decide)
      · exact absurd (hkept.1.symm.trans (single_node hp hx)) (Option.some_ne_none _)

/-- a move takes the file down and the whiteout away, and x comes back -/
theorem move_preserves_whiteout :
    ¬∀ p, lost_found ∉ p →
      union [(true, (single [97]).emptied), (true, single [97]), (false, single [120])] p = union held p := fun h =>
  absurd (((move_preserves_iff true [(false, single [120])] held_mirrored).1 h).2 [120] [] (by decide) rfl (by decide))
    (by decide)

/-! ## While the source is emptied -/

/-- the mount of two branches -/
def mount (src : Tree C) (a : Bool) (t : Tree C) : List Bytes → Option (Node C) := union [(true, src), (a, t)]

/-- **Remove**: the source loses its names one by one above the copy. The mount shows the same exactly as long as no
name is gone that the source itself still hides, by a whiteout or by closing the directory or one above. -/
theorem remove_shows_iff {src src' dst dst' : Tree C} {a : Bool} (h : Mirrored (mount src a dst) dst dst')
    (hkept : ∀ p, p.all plain → lost_found ∉ p → mount src a dst p = none → ¬Kept dst p)
    (hgone : ∀ p, src'.node p = src.node p ∨ src'.node p = none) :
    (∀ p, lost_found ∉ p → mount src' a dst' p = mount src a dst p) ↔
      ∀ n d, lost_found ∉ n :: d → src'.node d = some .dir → src'.node (n :: d) = none →
        mount src a dst (n :: d) ≠ none →
        is_file (src'.node ((AUFS_WH_PFX ++ n) :: d)) = false ∧
          ∀ e, e <:+ d → e ≠ [] → is_file (src'.node (AUFS_WH_DIROPQ :: e)) = false := by
  set l := (src'.layer true).restrict outside with hl
  have hl_closed : Closed l.node := restrict_closed (layer_closed true src')
  have hV_closed : Closed (shown (mount src a dst)) := shown_closed (view_closed _)
  have hcopy := (mirrored_exact_iff h a).2 hkept
  have hsub : ∀ p, l.node p ≠ none → shown (mount src a dst) p = l.node p := by
    intro p hne
    have hout : p.all outside := by
      by_contra hp
      exact hne (if_neg hp)
    rw [hl, restrict_node hout] at hne ⊢
    have hplain : p.all plain := by
      by_contra hp
      exact hne (if_neg hp)
    rw [layer_node hplain] at hne ⊢
    have hold := (hgone p).resolve_right hne
    have htop : (src.layer true).node p ≠ none := by rwa [layer_node hplain, ← hold]
    rw [shown, if_pos hout, hold, ← layer_node hplain true src]
    exact view_of_top (layer_closed true src) [dst.layer a] htop
  unfold mount at *
  rw [shown_eq_iff]
  refine (view_over_copy_iff hl_closed hV_closed hcopy hsub).trans (forall₂_congr fun n d => ?_)
  by_cases hout : (n :: d).all outside
  · have hn := (Bool.and_eq_true_iff.1 hout).1
    have hd := (Bool.and_eq_true_iff.1 hout).2
    rw [shown, if_pos hout, hl, restrict_node hout, restrict_node hd, restrict_hides hn]
    by_cases hshown : union [(true, src), (a, dst)] (n :: d) = none
    · exact iff_of_true (fun _ _ hne => absurd hshown hne) fun _ _ _ hne => absurd hshown hne
    have hplain := union_plain hshown
    rw [layer_node hplain, layer_node (Bool.and_eq_true_iff.1 hplain).2]
    simp [Tree.layer, Layer.Open, Layer.restrict, (Bool.and_eq_true_iff.1 hplain).1, all_outside.1 hout]
  · refine iff_of_true (fun _ _ hne => absurd (if_neg hout) hne) fun hlf => absurd (all_outside.2 hlf) hout

theorem mount_bare (src : Tree Unit) (a : Bool) (p : List Bytes) :
    mount src a bare p = (src.layer true).node p := by
  refine (view_eq_top_iff (layer_closed true src) [bare.layer a] (layer_closed true src) fun _ _ => rfl).2
    ⟨fun _ => rfl, fun n d _ _ => Or.inr ?_⟩ p
  by_contra hne
  obtain ⟨l, hl, hnode⟩ := first_ne_none hne
  rw [List.mem_singleton.1 (mem_of_mem_under hl)] at hnode
  exact hnode (ite_self none)

/-- a closed directory with the file x -/
def closed_src : Tree Unit :=
  Tree.of [([[100]], .dir), ([[120], [100]], .leaf ()), ([AUFS_WH_DIROPQ, [100]], .leaf ())] (by decide)

def closed_dst : Tree Unit := Tree.of [([[100]], .dir), ([[120], [100]], .leaf ())] (by decide)

/-- x is gone first -/
def closed_src' : Tree Unit := Tree.of [([[100]], .dir), ([AUFS_WH_DIROPQ, [100]], .leaf ())] (by decide)

theorem closed_dst_node {p : List Bytes} (h : closed_dst.node p ≠ none) :
    p = [] ∨ p = [[100]] ∨ p = [[120], [100]] := by
  obtain hnil | ⟨x, hx⟩ := find_ne_none h
  · exact Or.inl hnil
  · simp only [List.mem_cons, Prod.mk.injEq, List.not_mem_nil, or_false] at hx
    exact Or.inr (hx.imp And.left And.left)

theorem closed_copied (p : List Bytes) : mount closed_src false bare p = closed_dst.node p := by
  rw [mount_bare]
  by_cases hp : p.all plain
  · rw [layer_node hp]
    have hopq : p ≠ [AUFS_WH_DIROPQ, [100]] := fun heq => absurd (heq ▸ hp) (by decide)
    simp [closed_src, closed_dst, Tree.of, find, List.lookup_cons, beq_eq_false_iff_ne.2 hopq]
  · refine (if_neg hp).trans ?_
    by_contra hne
    rcases closed_dst_node (Ne.symm hne) with rfl | rfl | rfl <;> exact hp (by decide)

theorem closed_mirrored : Mirrored (mount closed_src false bare) bare closed_dst where
  excluded p hp := by
    have hnil : p ≠ [] := fun hnil => absurd (hnil ▸ hp) List.not_mem_nil
    refine Eq.trans ?_ (bare_node hnil).symm
    by_contra hne
    rcases closed_dst_node hne with rfl | rfl | rfl <;> exact absurd hp (by decide)
  copied p x _ hx := by rw [← closed_copied, hx]
  deleted p _ hnone _ := by rw [← closed_copied, hnone]
  kept p _ hnone hkept := absurd hkept (bare_kept (view_closed _) hnone)

theorem remove_shows_closed :
    ¬∀ p, lost_found ∉ p → mount closed_src' false closed_dst p = mount closed_src false bare p := by
  intro h
  have hkept : ∀ p, p.all plain → lost_found ∉ p → mount closed_src false bare p = none → ¬Kept bare p :=
    fun p _ _ hnone => bare_kept (view_closed _) hnone
  have hgone : ∀ p, closed_src'.node p = closed_src.node p ∨ closed_src'.node p = none := by
    intro p
    by_cases hx : p = [[120], [100]]
    · exact Or.inr (hx ▸ rfl)
    · left
      simp [closed_src, closed_src', Tree.of, find, List.lookup_cons, beq_eq_false_iff_ne.2 hx]
  have hfile := ((remove_shows_iff closed_mirrored hkept hgone).1 h [120] [[100]] (by decide) rfl rfl (by decide)).2
    [[100]] List.suffix_rfl (List.cons_ne_nil _ _)
  exact absurd hfile (by decide)

end AufsUtil.Aubrsync
