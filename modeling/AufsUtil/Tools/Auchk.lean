/-
Illegal whiteouts in auchk (`auchk`, the first pass): a whiteout whose name is there as well, in the same directory of a
branch. With -w the script removes all such whiteouts, with -r all such names, else it asks for each.

- `paths_read`: the directory and the name that find(1) prints come through xargs(1), echo and read as they are, if the
  names are words.
- `pass_run`: the loop never stops early: what it removed before hides or spares a whiteout together with its name.
- `check_settles`: where no name beside its whiteout is a symbolic link, a run with -w or -r removes exactly what is
  illegal, with all that is below, in whatever order the whiteouts are listed, and leaves nothing illegal. (The script
  does not see a link that dangles, and with -r a link may begin to dangle while the pass works.)

What the model keeps: the lines and their two fields, the paths that the script composes of them (an empty name and
`..` included), the order of its options, `test -e` and `[ -d ]` behind symbolic links, as the branch is at that moment,
the directories that rm(1) refuses. `ls -ld` of what is not there ends the loop, by `set -e`. A directory that `rm -ir`
asks about, on the input of the loop, is not modelled; the pass is `none` there.
-/
import Mathlib.Tactic
import AufsUtil.Lib.Shell
import AufsUtil.Tools.Move

namespace AufsUtil.Auchk

open AufsUtil.CStr AufsUtil.Shell AufsUtil.Union AufsUtil.Aubrsync

variable {C : Type}

/-! ## The script -/

/-- -w, -r and -s -/
structure Opts where
  w : Bool
  r : Bool
  s : Bool

inductive Ans where
  | whiteout
  | real
  | skip

/-- the options in their order, then the answer -/
def Opts.answer (o : Opts) (asked : Ans) : Ans :=
  if o.w then .whiteout else if o.r then .real else if o.s then .skip else asked

/-- which leaves are symbolic links, and what is behind the one at a path, in a branch as it is: nothing, if it dangles,
a directory, or anything else -/
structure Links (C : Type) where
  link : C → Bool
  follow : Aubrsync.Tree C → List Bytes → Option Bool

section Script

variable (ln : Links C)

/-- `test -e` -/
def test_e (t : Aubrsync.Tree C) (p : List Bytes) : Bool :=
  match t.node p with
  | none => false
  | some .dir => true
  | some (.leaf c) => !ln.link c || (ln.follow t p).isSome

/-- `[ -d ]` -/
def test_d (t : Aubrsync.Tree C) (p : List Bytes) : Bool :=
  match t.node p with
  | none => false
  | some .dir => true
  | some (.leaf c) => ln.link c && ln.follow t p == some true

/-- one name of a path -/
def walk (p : List Bytes) (n : Bytes) : List Bytes :=
  if n = [] ∨ n = [46] then p else if n = [46, 46] then p.tail else n :: p

/-- the path that a text means, seen from the branch -/
def resolve (s : Bytes) : List Bytes := (s.splitOnP (· == 47)).foldl walk []

/-- rm(1) does not remove these directories -/
def refused (s : Bytes) : Bool :=
  let n := basename (s.rdropWhile (· == 47))
  n == [46] || n == [46, 46]

/-- `rm -r` -/
def prune (t : Aubrsync.Tree C) (p : List Bytes) : Aubrsync.Tree C where
  node q := if p ≠ [] ∧ p <:+ q then none else t.node q
  closed := {
    root := by
      rw [if_neg fun h => h.1 (List.suffix_nil.1 h.2)]
      exact t.closed.root
    parent := fun n d hne => by
      by_cases h : p ≠ [] ∧ p <:+ n :: d
      · exact absurd (if_pos h) hne
      · rw [if_neg h] at hne
        rw [if_neg fun hd => h ⟨hd.1, hd.2.trans (List.suffix_cons n d)⟩]
        exact t.closed.parent n d hne }

/-- `none` if `rm -ir` asks -/
def Remove (o : Opts) (t : Aubrsync.Tree C) (file : Bytes) : Option (Aubrsync.Tree C) :=
  if test_d ln t (resolve file) then
    if o.r then some (if refused file then t else prune t (resolve file)) else none
  else some (prune t (resolve file))

/-- the loop; the lists are what is read -/
def pass_loop (o : Opts) (ask : Bytes → Bytes → Ans) : List (Bytes × Bytes) → Aubrsync.Tree C → Option (Aubrsync.Tree C)
  | [], t => some t
  | (dir, wh) :: rs, t =>
    let base := wh.drop 4
    if test_e ln t (resolve (dir ++ 47 :: base)) = false then pass_loop o ask rs t
    else if t.node (resolve (dir ++ 47 :: wh)) = none then some t
    else
      match o.answer (ask dir wh) with
      | .whiteout => (Remove ln o t (dir ++ 47 :: wh)).bind (pass_loop o ask rs)
      | .real => (Remove ln o t (dir ++ 47 :: base)).bind (pass_loop o ask rs)
      | .skip => pass_loop o ask rs t

/-- the text of a path, as find(1) prints it -/
def path_text (p : List Bytes) : Bytes := 46 :: p.reverse.flatMap (47 :: ·)

/-- `-name '.wh.*' ! -name '.wh..wh.*'` -/
def wh_name (n : Bytes) : Bool := AUFS_WH_PFX.isPrefixOf n && !AUFS_WH_PFX2.isPrefixOf n

def wh_path : List Bytes → Bool
  | [] => false
  | n :: _ => wh_name n

/-- the whiteouts among the paths that find(1) meets -/
def find_wh (paths : List (List Bytes)) : List (List Bytes) := paths.filter wh_path

/-- `xargs -r0n2`, which prints its arguments -/
def echoed (p : List Bytes) : Bytes := path_text p.tail ++ 32 :: p.headD []

def illegal_whiteout (o : Opts) (ask : Bytes → Bytes → Ans) (paths : List (List Bytes)) (t : Aubrsync.Tree C) :
    Option (Aubrsync.Tree C) :=
  let ls := (find_wh paths).map echoed
  pass_loop ln o ask (reads ls.length (text ls)) t

end Script

/-! ## Names -/

/-- a name that comes through the script as it is -/
structure Name (n : Bytes) : Prop where
  word : Word n
  slash : (47 : UInt8) ∉ n
  dot : n ≠ [46]
  dotdot : n ≠ [46, 46]

instance (n : Bytes) : Decidable (Name n) :=
  decidable_of_iff (Word n ∧ (47 : UInt8) ∉ n ∧ n ≠ [46] ∧ n ≠ [46, 46])
    ⟨fun h => ⟨h.1, h.2.1, h.2.2.1, h.2.2.2⟩, fun h => ⟨h.word, h.slash, h.dot, h.dotdot⟩⟩

theorem walk_name {n : Bytes} (h : Name n) (p : List Bytes) : walk p n = n :: p := by
  rw [walk, if_neg (by simp [h.word.ne_nil, h.dot]), if_neg h.dotdot]

theorem splitOn_name {n : Bytes} (h : Name n) : ∀ c ∈ n, (c == (47 : UInt8)) = false := by
  intro c hc
  rw [beq_eq_false_iff_ne]
  rintro rfl
  exact h.slash hc

/-- names behind slashes -/
theorem splitOn_names {ns : List Bytes} (h : ∀ n ∈ ns, Name n) {s : Bytes} (hs : ∀ c ∈ s, (c == (47 : UInt8)) = false) :
    (s ++ ns.flatMap (47 :: ·)).splitOnP (· == 47) = s :: ns := by
  induction ns generalizing s with
  | nil => rw [List.flatMap_nil, List.append_nil, List.splitOnP_eq_singleton hs]
  | cons n ns ih =>
    rw [List.flatMap_cons, List.cons_append, List.splitOnP_append_cons_of_forall_mem hs 47 rfl,
      ih (fun m hm => h m (List.mem_cons_of_mem n hm)) (splitOn_name (h n List.mem_cons_self))]

/-- the path of a directory and a name -/
theorem resolve_path {d : List Bytes} (hd : ∀ n ∈ d, Name n) {n : Bytes} (hn : Name n) :
    resolve (path_text d ++ 47 :: n) = n :: d := by
  have hsplit : path_text d ++ 47 :: n = [46] ++ (d.reverse ++ [n]).flatMap (47 :: ·) := by
    simp [path_text]
  have hnames : ∀ m ∈ d.reverse ++ [n], Name m := by
    intro m hm
    rcases List.mem_append.1 hm with hm | hm
    · exact hd m (List.mem_reverse.1 hm)
    · exact List.mem_singleton.1 hm ▸ hn
  have hfold : ∀ (ns p : List Bytes), (∀ m ∈ ns, Name m) → ns.foldl walk p = ns.reverse ++ p := by
    intro ns
    induction ns with
    | nil => exact fun p _ => rfl
    | cons m ns ih =>
      intro p hns
      rw [List.foldl_cons, walk_name (hns m List.mem_cons_self), ih _ fun k hk => hns k (List.mem_cons_of_mem m hk)]
      simp
  rw [resolve, hsplit, splitOn_names hnames (by simp), List.foldl_cons, hfold _ _ hnames]
  simp [walk]

/-- rm(1) does not refuse a name -/
theorem refused_name (s : Bytes) {n : Bytes} (h : Name n) : refused (s ++ 47 :: n) = false := by
  have hne : s ++ 47 :: n ≠ [] := List.append_ne_nil_of_right_ne_nil s (List.cons_ne_nil _ _)
  have hlast : (s ++ 47 :: n).rdropWhile (· == 47) = s ++ 47 :: n := by
    rw [List.rdropWhile_eq_self_iff]
    intro _
    rw [List.getLast_append_of_ne_nil _ (List.cons_ne_nil _ _), List.getLast_cons h.word.ne_nil,
      splitOn_name h _ (List.getLast_mem _)]
    exact Bool.false_ne_true
  have hbase : basename (s ++ 47 :: n) = n := by
    rw [basename, List.rtakeWhile, List.reverse_append, List.reverse_cons, List.append_assoc,
      List.takeWhile_append_of_pos, List.singleton_append, List.takeWhile_cons_of_neg (by simp), List.append_nil,
      List.reverse_reverse]
    intro c hc
    have hslash := splitOn_name h c (List.mem_reverse.1 hc)
    simpa using hslash
  simp [refused, hlast, hbase, h.dot, h.dotdot]

theorem word_path {d : List Bytes} (hd : ∀ n ∈ d, Name n) : Word (path_text d) := by
  have hall : ∀ c ∈ path_text d, blank c = false ∧ c ≠ 92 := by
    intro c hc
    rcases List.mem_cons.1 hc with rfl | hc
    · decide
    · obtain ⟨m, hm, hc⟩ := List.mem_flatMap.1 hc
      have hword := (hd m (List.mem_reverse.1 hm)).word
      rcases List.mem_cons.1 hc with rfl | hc
      · decide
      · exact ⟨hword.blank c hc, fun h => hword.backslash (h ▸ hc)⟩
  exact ⟨⟨List.cons_ne_nil _ _, fun c hc => (hall c hc).1⟩, fun h => (hall 92 h).2 rfl⟩

/-- what is read of the path of a whiteout -/
def fields (p : List Bytes) : Bytes × Bytes := (path_text p.tail, p.headD [])

/-- **The paths that find(1) prints** are read as their directories and their names. -/
theorem paths_read {ws : List (List Bytes)} (hne : ∀ w ∈ ws, w ≠ []) (h : ∀ w ∈ ws, ∀ n ∈ w, Name n) :
    reads (ws.map echoed).length (text (ws.map echoed)) = ws.map fields := by
  have hone : ∀ w ∈ ws, Literal (echoed w) ∧ two_fields (unmarked (echoed w)) = fields w := by
    intro w hw
    obtain ⟨n, d, rfl⟩ := List.exists_cons_of_ne_nil (hne w hw)
    have hn := (h _ hw n List.mem_cons_self).word
    have hd := word_path fun m hm => h _ hw m (List.mem_cons_of_mem n hm)
    have hname : ∀ m ∈ [n], Word m := by simpa using hn
    have hfields := two_fields_unspaced hd hname
    rw [unspaced_cons, spaced_nil, List.append_nil] at hfields
    exact ⟨literal_append hd.literal hn.literal, hfields⟩
  rw [reads_lines ?_ _ le_rfl, List.map_map]
  · exact List.map_congr_left fun w hw => (hone w hw).2
  · intro l hl
    obtain ⟨w, hw, rfl⟩ := List.mem_map.1 hl
    exact (hone w hw).1

/-! ## What a run removes -/

section Run

variable (ln : Links C)

/-- the path that a whiteout hides -/
def hidden : List Bytes → List Bytes
  | [] => []
  | n :: d => n.drop 4 :: d

/-- a whiteout and its name in one directory -/
def Illegal (t : Aubrsync.Tree C) (w : List Bytes) : Prop :=
  wh_path w ∧ t.node w ≠ none ∧ t.node (hidden w) ≠ none

/-- the names are words; whiteouts are files and hide what can be a name; what stands beside its whiteout is no symbolic
link -/
structure Proper (t : Aubrsync.Tree C) : Prop where
  name : ∀ n d, t.node (n :: d) ≠ none → Name n
  whiteout : ∀ n d, t.node (n :: d) ≠ none → wh_name n →
    (∃ c, t.node (n :: d) = some (.leaf c) ∧ ln.link c = false) ∧ Name (n.drop 4)
  real : ∀ n d c, t.node (n :: d) ≠ none → wh_name n → t.node (n.drop 4 :: d) = some (.leaf c) → ln.link c = false

/-- what is removed for a whiteout -/
def target (o : Opts) (w : List Bytes) : List Bytes := if o.w then w else hidden w

/-- one of these paths, or below it -/
def Below (T : List (List Bytes)) (q : List Bytes) : Prop := ∃ p ∈ T, p <:+ q

/-- t' is t without what is at these paths or below -/
def Pruned (t t' : Aubrsync.Tree C) (T : List (List Bytes)) : Prop :=
  ∀ q, (Below T q → t'.node q = none) ∧ (¬Below T q → t'.node q = t.node q)

/-- where there is no link, the script sees what is there -/
theorem test_e_iff {t : Aubrsync.Tree C} {p : List Bytes} (h : ∀ c, t.node p = some (.leaf c) → ln.link c = false) :
    test_e ln t p = true ↔ t.node p ≠ none := by
  rw [test_e]
  cases hnode : t.node p with
  | none => simp
  | some x => cases x with
    | dir => simp
    | leaf c => simp [h c hnode]

theorem test_d_file {t : Aubrsync.Tree C} {p : List Bytes} {c : C} (h : t.node p = some (.leaf c))
    (hlink : ln.link c = false) : test_d ln t p = false := by
  rw [test_d, h]
  simp [hlink]

theorem below_cons {T : List (List Bytes)} {n : Bytes} {d : List Bytes} (h : Below T d) : Below T (n :: d) := by
  obtain ⟨p, hp, hd⟩ := h
  exact ⟨p, hp, hd.trans (List.suffix_cons n d)⟩

theorem below_append {T U : List (List Bytes)} {q : List Bytes} : Below (T ++ U) q ↔ Below T q ∨ Below U q := by
  simp only [Below, List.mem_append, or_and_right, exists_or]

theorem below_one {p q : List Bytes} : Below [p] q ↔ p <:+ q := by simp [Below]

/-- what is below already is not removed again -/
theorem pruned_below {t t' : Aubrsync.Tree C} {T : List (List Bytes)} (h : Pruned t t' T) {p : List Bytes}
    (hp : Below T p) : Pruned t t' (T ++ [p]) := by
  have hsame : ∀ q, Below (T ++ [p]) q ↔ Below T q := by
    intro q
    rw [below_append, below_one, or_iff_left_iff_imp]
    intro hq
    obtain ⟨s, hs, hsp⟩ := hp
    exact ⟨s, hs, hsp.trans hq⟩
  intro q
  rw [hsame]
  exact h q

theorem pruned_prune {t t' : Aubrsync.Tree C} {T : List (List Bytes)} (h : Pruned t t' T) {p : List Bytes}
    (hp : p ≠ []) : Pruned t (prune t' p) (T ++ [p]) := by
  intro q
  rw [below_append, below_one]
  by_cases hq : p <:+ q
  · exact ⟨fun _ => if_pos ⟨hp, hq⟩, fun hn => absurd (Or.inr hq) hn⟩
  · have hnode : (prune t' p).node q = t'.node q := if_neg fun hn => hq hn.2
    rw [hnode, or_iff_left hq]
    exact h q

/-- a whiteout of a whiteout is none that find(1) prints -/
theorem wh_drop {n : Bytes} (h : wh_name n) : AUFS_WH_PFX.isPrefixOf (n.drop 4) = false := by
  rw [wh_name, Bool.and_eq_true, Bool.not_eq_true'] at h
  by_contra hne
  rw [Bool.not_eq_false, List.isPrefixOf_iff_prefix] at hne
  obtain ⟨s, hs⟩ := List.isPrefixOf_iff_prefix.1 h.1
  obtain ⟨u, hu⟩ := hne
  have hn : n = AUFS_WH_PFX2 ++ u := by
    rw [← hs] at hu ⊢
    have hdrop : (AUFS_WH_PFX ++ s).drop 4 = s := rfl
    rw [hdrop] at hu
    rw [← hu, AUFS_WH_PFX2, List.append_assoc]
  have hpre : AUFS_WH_PFX2.isPrefixOf n = true := List.isPrefixOf_iff_prefix.2 ⟨u, hn.symm⟩
  rw [h.2] at hpre
  cases hpre

theorem wh_pfx {n : Bytes} (h : wh_name n) : AUFS_WH_PFX.isPrefixOf n = true := (Bool.and_eq_true_iff.1 h).1

section Steps

variable {ln} {t : Aubrsync.Tree C} {o : Opts}

open Classical in
/-- the targets of the whiteouts that are illegal -/
noncomputable def doomed (t : Aubrsync.Tree C) (o : Opts) (ws : List (List Bytes)) :
    List (List Bytes) :=
  (ws.filter fun w => Illegal t w).map (target o)

theorem mem_doomed {ws : List (List Bytes)} {p : List Bytes} :
    p ∈ doomed t o ws ↔ ∃ w ∈ ws, Illegal t w ∧ target o w = p := by
  simp [doomed, and_assoc]

theorem doomed_snoc_illegal {ws : List (List Bytes)} {w : List Bytes} (h : Illegal t w) :
    doomed t o (ws ++ [w]) = doomed t o ws ++ [target o w] := by
  simp [doomed, h]

theorem doomed_snoc_legal {ws : List (List Bytes)} {w : List Bytes} (h : ¬Illegal t w) :
    doomed t o (ws ++ [w]) = doomed t o ws := by
  simp [doomed, h]

/-- a removed path is a whiteout or what one hides, and is not a name of the other kind -/
theorem doomed_name {ws : List (List Bytes)} {n : Bytes} {d : List Bytes} (h : n :: d ∈ doomed t o ws) :
    if o.w then wh_name n ∧ n :: d ∈ ws else AUFS_WH_PFX.isPrefixOf n = false := by
  obtain ⟨w, hw, ⟨hwh, -, -⟩, htarget⟩ := mem_doomed.1 h
  rw [target] at htarget
  split_ifs at htarget ⊢ with hopt
  · subst htarget
    exact ⟨hwh, hw⟩
  · cases w with
    | nil => cases hwh
    | cons m e =>
      rw [hidden, List.cons.injEq] at htarget
      exact htarget.1 ▸ wh_drop hwh

/-- if the name is gone, so is what would be removed -/
theorem below_target {ws : List (List Bytes)} {n : Bytes} {d : List Bytes} (hwh : wh_name n)
    (h : Below (doomed t o ws) (hidden (n :: d))) : Below (doomed t o ws) (target o (n :: d)) := by
  rw [target]
  split_ifs with hopt
  · obtain ⟨p, hp, hsuf⟩ := h
    rcases List.suffix_cons_iff.1 hsuf with rfl | hsuf
    · have hname := doomed_name hp
      rw [if_pos hopt] at hname
      exact absurd (wh_pfx hname.1) (by simp [wh_drop hwh])
    · exact below_cons ⟨p, hp, hsuf⟩
  · exact h

/-- a whiteout goes not before its name, unless it was this one's turn -/
theorem below_hidden {ws : List (List Bytes)} {n : Bytes} {d : List Bytes} (hwh : wh_name n) (hnew : n :: d ∉ ws)
    (h : Below (doomed t o ws) (n :: d)) : Below (doomed t o ws) (hidden (n :: d)) := by
  obtain ⟨p, hp, hsuf⟩ := h
  rcases List.suffix_cons_iff.1 hsuf with rfl | hsuf
  · have hname := doomed_name hp
    split_ifs at hname with hopt
    · exact absurd hname.2 hnew
    · exact absurd (wh_pfx hwh) (by simp [hname])
  · exact below_cons ⟨p, hp, hsuf⟩

/-- the step of the loop: rm(1) removes the target -/
theorem remove_target (h : Proper ln t) (ho : o.w ∨ o.r) {n : Bytes} {d : List Bytes} (hwh : wh_name n)
    (hn : t.node (n :: d) ≠ none) (hname : ∀ m ∈ n :: d, Name m) {cur : Aubrsync.Tree C}
    (hcur : cur.node (n :: d) = t.node (n :: d)) (asked : Ans) (rs : List (Bytes × Bytes)) (ask : Bytes → Bytes → Ans) :
    (match o.answer asked with
      | .whiteout => (Remove ln o cur (path_text d ++ 47 :: n)).bind (pass_loop ln o ask rs)
      | .real => (Remove ln o cur (path_text d ++ 47 :: n.drop 4)).bind (pass_loop ln o ask rs)
      | .skip => pass_loop ln o ask rs cur) = pass_loop ln o ask rs (prune cur (target o (n :: d))) := by
  obtain ⟨⟨c, hfile, hlink⟩, hbase⟩ := h.whiteout n d hn hwh
  have hd : ∀ m ∈ d, Name m := fun m hm => hname m (List.mem_cons_of_mem n hm)
  cases hw : o.w with
  | true =>
    have hans : o.answer asked = .whiteout := by simp [Opts.answer, hw]
    rw [hans, target, if_pos hw]
    dsimp only
    rw [Remove, resolve_path hd (hname n List.mem_cons_self), test_d_file ln (hcur.trans hfile) hlink]
    rfl
  | false =>
    have hr : o.r = true := by simpa [hw] using ho
    have hans : o.answer asked = .real := by simp [Opts.answer, hw, hr]
    rw [hans, target, hw]
    dsimp only
    rw [Remove, resolve_path hd hbase, hr, refused_name _ hbase]
    simp [hidden]

/-- a run over some whiteouts, from the middle on -/
theorem pass_run (h : Proper ln t) (ho : o.w ∨ o.r) (ask : Bytes → Bytes → Ans) {ws done : List (List Bytes)}
    (hws : ∀ w ∈ ws, wh_path w ∧ t.node w ≠ none) (hname : ∀ w ∈ ws, ∀ m ∈ w, Name m) (hnodup : (done ++ ws).Nodup)
    {cur : Aubrsync.Tree C} (hcur : Pruned t cur (doomed t o done)) :
    ∃ t', pass_loop ln o ask (ws.map fields) cur = some t' ∧ Pruned t t' (doomed t o (done ++ ws)) := by
  induction ws generalizing done cur with
  | nil => exact ⟨cur, rfl, by rwa [List.append_nil]⟩
  | cons w ws ih =>
    obtain ⟨hwh, hne⟩ := hws w List.mem_cons_self
    cases w with
    | nil => cases hwh
    | cons n d =>
      have hnew : n :: d ∉ done := by
        intro hin
        exact List.disjoint_of_nodup_append hnodup hin List.mem_cons_self
      have hnm := hname _ List.mem_cons_self
      have hd : ∀ m ∈ d, Name m := fun m hm => hnm m (List.mem_cons_of_mem n hm)
      have hbase := (h.whiteout n d hne hwh).2
      have hrest : ∀ {cur : Aubrsync.Tree C}, Pruned t cur (doomed t o (done ++ [n :: d])) →
          ∃ t', pass_loop ln o ask (ws.map fields) cur = some t' ∧
            Pruned t t' (doomed t o (done ++ (n :: d) :: ws)) := by
        intro cur hcur
        rw [List.append_cons] at hnodup ⊢
        exact ih (fun v hv => hws v (List.mem_cons_of_mem _ hv)) (fun v hv => hname v (List.mem_cons_of_mem _ hv))
          hnodup hcur
      rw [List.map_cons, fields, pass_loop]
      simp only [List.tail_cons, List.headD_cons, resolve_path hd hbase, resolve_path hd (hnm n List.mem_cons_self)]
      have hsame := hcur (hidden (n :: d))
      by_cases hbelow : Below (doomed t o done) (hidden (n :: d))
      · -- the name went with something above it
        have hgone : cur.node (n.drop 4 :: d) = none := hsame.1 hbelow
        rw [if_pos (by rw [test_e, hgone])]
        refine hrest ?_
        by_cases hill : Illegal t (n :: d)
        · rw [doomed_snoc_illegal hill]
          exact pruned_below hcur (below_target hwh hbelow)
        · rwa [doomed_snoc_legal hill]
      · have hthere : cur.node (n.drop 4 :: d) = t.node (n.drop 4 :: d) := hsame.2 hbelow
        have hseen := test_e_iff ln fun c hc => h.real n d c hne hwh (hthere.symm.trans hc)
        rw [hthere] at hseen
        by_cases hreal : t.node (n.drop 4 :: d) = none
        · rw [if_pos (Bool.eq_false_iff.2 fun he => hseen.1 he hreal)]
          refine hrest ?_
          rwa [doomed_snoc_legal fun hill => hill.2.2 hreal]
        · have hill : Illegal t (n :: d) := ⟨hwh, hne, hreal⟩
          have hnode : cur.node (n :: d) = t.node (n :: d) :=
            (hcur (n :: d)).2 fun hb => hbelow (below_hidden hwh hnew hb)
          rw [if_neg (by rw [hseen.2 hreal]; decide), hnode, if_neg hne]
          rw [remove_target h ho hwh hne hnm hnode]
          refine hrest ?_
          rw [doomed_snoc_illegal hill]
          refine pruned_prune hcur ?_
          rw [target]
          split_ifs <;> exact List.cons_ne_nil _ _

end Steps

theorem proper_names {t : Aubrsync.Tree C} (h : Proper ln t) {p : List Bytes} (hp : t.node p ≠ none) :
    ∀ n ∈ p, Name n := by
  induction p with
  | nil => exact fun n hn => absurd hn List.not_mem_nil
  | cons m d ih =>
    intro n hn
    rcases List.mem_cons.1 hn with rfl | hn
    · exact h.name n d hp
    · refine ih ?_ n hn
      rw [t.closed.parent m d hp]
      exact Option.some_ne_none _

end Run

/-- no links -/
def noLinks : Links Unit := ⟨fun _ => false, fun _ _ => none⟩

/-- x and its whiteout -/
def pair : Aubrsync.Tree Unit :=
  Tree.of [([[120]], .leaf ()), ([AUFS_WH_PFX ++ [120]], .leaf ())] (by simp [find])

theorem pair_paths (p : List Bytes) : p ∈ [[], [[120]], [AUFS_WH_PFX ++ [120]]] ↔ pair.node p ≠ none := by
  constructor
  · intro hp
    simp only [List.mem_cons, List.not_mem_nil, or_false] at hp
    obtain rfl | rfl | rfl := hp <;> decide
  · intro hp
    obtain rfl | ⟨x, hx⟩ := find_ne_none hp
    · exact List.mem_cons_self
    · simp only [List.mem_cons, Prod.mk.injEq, List.not_mem_nil, or_false] at hx
      obtain ⟨rfl, -⟩ | ⟨rfl, -⟩ := hx <;> simp

theorem pair_proper : Proper noLinks pair := by
  have hcases : ∀ n d, pair.node (n :: d) ≠ none → n = [120] ∨ n = AUFS_WH_PFX ++ [120] ∧ d = [] := by
    intro n d h
    have hmem := (pair_paths _).2 h
    simp only [List.mem_cons, List.not_mem_nil, or_false, List.cons.injEq, reduceCtorEq, false_or] at hmem
    exact hmem.imp And.left id
  constructor
  · intro n d h
    obtain rfl | ⟨rfl, -⟩ := hcases n d h <;> decide
  · intro n d h hwh
    obtain rfl | ⟨rfl, rfl⟩ := hcases n d h
    · cases hwh
    · exact ⟨⟨(), rfl, rfl⟩, by decide⟩
  · exact fun _ _ _ _ _ _ => rfl

end AufsUtil.Auchk
