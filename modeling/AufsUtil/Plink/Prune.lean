/-
Which nodes the callback of auplink is called on in a non-glibc build, on a tree without obstacles.

`DirTree` is such a tree: one device, all directories readable, not as deep as the descriptor limit, all paths shorter
than PATH_MAX, no directory inside itself. `nodes` are the nodes that are to be visited: all but those below a directory
named AUFS_WH_PLINKDIR, which is itself visited.

- `node_played`: in every subtree the callback is called on these nodes in the order of readdir, up to the first one it
  does not return 0 on (`upto`).
- `prunes_only_plinkdir_iff`: so it is called exactly once on each of them, and on no other, exactly if none
  but the last stops the walk. The root is special: `lev.base` leads to the '/' before its name, so the
  callback does not know it.
- `siblings_skipped`: the entries behind the pruned directory are not visited.
-/
import Mathlib.Tactic
import AufsUtil.Plink.Nftw

namespace AufsUtil.Plink

open AufsUtil.CStr

/-! ## The tree and the nodes to visit -/

/-- the path of an entry -/
def child (path d : Bytes) : Bytes := path ++ 47 :: d

/-- a tree below path that the walk can go through, less than n levels deep; `above` are the inode numbers of the
directories it is in -/
def DirTree (W : World) (dev : ℕ) : ℕ → List ℕ → Bytes → Prop
  | 0, _, _ => False
  | n + 1, above, path =>
    path.length < PATH_MAX ∧ ∃ st, W.lstat path = .ok st ∧ st.dev = dev ∧
      (st.mode = .dir → st.ino ∉ above ∧ W.readable path = true ∧ ∃ names, W.opendir path = .ok names ∧
        ∀ d ∈ names, dots d = false → d ≠ [] ∧ 47 ∉ d ∧ DirTree W dev n (st.ino :: above) (child path d))

structure Node where
  path : Bytes
  name : Bytes
  st : Stat
deriving DecidableEq, Repr

/-- the nodes of the tree that are not below a directory named AUFS_WH_PLINKDIR, in the order of readdir -/
def nodes (W : World) : ℕ → Bytes → Bytes → List Node
  | 0, _, _ => []
  | n + 1, name, path =>
    match W.lstat path with
    | .error _ => []
    | .ok st =>
      ⟨path, name, st⟩ ::
        if st.mode = .dir ∧ name ≠ AUFS_WH_PLINKDIR then
          match W.opendir path with
          | .error _ => []
          | .ok names => names.flatMap fun d => if dots d then [] else nodes W n d (child path d)
        else []

theorem nodes_leaf {W : World} {n : ℕ} {name path : Bytes} {st : Stat} (hst : W.lstat path = .ok st)
    (h : ¬ (st.mode = .dir ∧ name ≠ AUFS_WH_PLINKDIR)) : nodes W (n + 1) name path = [⟨path, name, st⟩] := by
  simp only [nodes, hst]
  rw [if_neg h]

theorem nodes_dir {W : World} {n : ℕ} {name path : Bytes} {st : Stat} {names : List Bytes}
    (hst : W.lstat path = .ok st) (hm : st.mode = .dir) (hname : name ≠ AUFS_WH_PLINKDIR)
    (hop : W.opendir path = .ok names) :
    nodes W (n + 1) name path =
      ⟨path, name, st⟩ :: names.flatMap fun d => if dots d then [] else nodes W n d (child path d) := by
  simp only [nodes, hst, hop]
  rw [if_pos ⟨hm, hname⟩]

/-- the name of a path: what is behind its last '/' -/
def basename (path : Bytes) : Bytes := ((strrchr path 47).map fun i => path.drop (i + 1)).getD path

/-- the commands of auplink -/
inductive Cmd where
  | flush
  | cpup
  | list
deriving DecidableEq, Repr

/-- the callback that do_plink chooses -/
def func (C : Chown) (ia : List ℕ) : Cmd → Call → Ret
  | .flush | .cpup => ftw_cpup C ia
  | .list => ftw_list ia

/-- the callback does not return 0 on the node: it bears the name of the pruned directory, or its chown fails -/
def Node.Stops (C : Chown) (ia : List ℕ) (cmd : Cmd) (x : Node) : Prop :=
  x.name = AUFS_WH_PLINKDIR ∨ (cmd ≠ .list ∧ x.st.mode ≠ .dir ∧ x.st.ino ∈ ia ∧ C.run x.path x.st = false)

instance (C : Chown) (ia : List ℕ) (cmd : Cmd) (x : Node) : Decidable (x.Stops C ia cmd) := by
  unfold Node.Stops; infer_instance

/-! ## Up to the first node that stops the walk -/

def upto {α : Type} (P : α → Prop) [DecidablePred P] : List α → List α
  | [] => []
  | x :: xs => if P x then [x] else x :: upto P xs

section Upto

variable {α : Type} (P : α → Prop) [DecidablePred P]

theorem upto_append (xs ys : List α) :
    upto P (xs ++ ys) = if ∃ x ∈ xs, P x then upto P xs else xs ++ upto P ys := by
  induction xs with
  | nil => simp
  | cons x xs ih =>
    simp only [List.cons_append, upto]
    by_cases hx : P x
    · simp [hx]
    · simp only [hx, if_false, ih, List.exists_mem_cons_iff, false_or]
      split_ifs <;> rfl

/-- nothing is left out exactly if only the last one can be of the kind -/
theorem length_upto (xs : List α) : (upto P xs).length = xs.length ↔ ∀ x ∈ xs.dropLast, ¬ P x := by
  induction xs with
  | nil => simp [upto]
  | cons x xs ih =>
    cases xs with
    | nil =>
      simp only [upto]
      split_ifs <;> simp
    | cons y ys =>
      rw [List.dropLast_cons_cons, upto]
      by_cases hx : P x
      · simp [hx]
      · simp only [hx, if_false, List.length_cons, Nat.add_right_cancel_iff, List.forall_mem_cons, not_false_eq_true,
          true_and]
        rw [← ih]
        rfl

theorem upto_eq_nil (xs : List α) : upto P xs = [] ↔ xs = [] := by
  cases xs with
  | nil => simp [upto]
  | cons x xs =>
    rw [upto]
    split_ifs <;> simp

theorem upto_initial (xs : List α) : upto P xs <+: xs := by
  induction xs with
  | nil => exact List.nil_prefix
  | cons x xs ih =>
    rw [upto]
    split_ifs
    · exact ⟨xs, rfl⟩
    · exact List.cons_prefix_cons.2 ⟨rfl, ih⟩

end Upto

/-! ## The walk through the tree -/

section Walk

variable {W : World} {dev : ℕ} {C : Chown} {ia : List ℕ} {cmd : Cmd}

/-- the callback is called on the nodes xs up to the first one that stops the walk -/
structure Played (C : Chown) (ia : List ℕ) (cmd : Cmd) (es : List Event) (xs : List Node) : Prop where
  calls : (play (func C ia cmd) es).2.map Call.path = (upto (Node.Stops C ia cmd) xs).map Node.path
  ret : (play (func C ia cmd) es).1 = .ret 0 ↔ ∀ x ∈ xs, ¬ x.Stops C ia cmd

theorem played_nil : Played C ia cmd [] [] := ⟨rfl, by simp [play]⟩

theorem played_append {es fs : List Event} {xs ys : List Node} (h : Played C ia cmd es xs) (h' : Played C ia cmd fs ys) :
    Played C ia cmd (es ++ fs) (xs ++ ys) := by
  have hp := play_append (func C ia cmd) es fs
  have hu := upto_append (Node.Stops C ia cmd) xs ys
  by_cases hstop : ∃ x ∈ xs, x.Stops C ia cmd
  · have hret : (play (func C ia cmd) es).1 ≠ .ret 0 := fun h0 => by
      obtain ⟨x, hx, hs⟩ := hstop
      exact h.ret.1 h0 x hx hs
    rw [if_neg hret] at hp
    rw [if_pos hstop] at hu
    refine ⟨by rw [hp, hu, h.calls], ?_⟩
    rw [hp]
    refine ⟨fun h0 => absurd h0 hret, ?_⟩
    intro hall
    obtain ⟨x, hx, hs⟩ := hstop
    exact absurd hs (hall x (List.mem_append_left ys hx))
  · have hnone : ∀ x ∈ xs, ¬ x.Stops C ia cmd := fun x hx hs => hstop ⟨x, hx, hs⟩
    have hxs : upto (Node.Stops C ia cmd) xs = xs := by
      have := upto_append (Node.Stops C ia cmd) xs []
      rw [if_neg hstop] at this
      simpa [upto] using this
    have hcalls := h.calls
    rw [hxs] at hcalls
    rw [if_pos (h.ret.2 hnone)] at hp
    rw [if_neg hstop] at hu
    refine ⟨by rw [hp, hu, List.map_append, List.map_append, hcalls, h'.calls], ?_⟩
    rw [hp, h'.ret]
    simp only [List.mem_append]
    exact ⟨fun hy x hx => hx.elim (hnone x) (hy x), fun hall x hx => hall x (Or.inr hx)⟩

/-- the call on the node x -/
structure OnNode (c : Call) (x : Node) : Prop where
  path : c.path = x.path
  st : c.st = x.st
  name : c.path.drop c.base = x.name
  type : (c.type = .D ∨ c.type = .DNR) ↔ x.st.mode = .dir

theorem func_stops {c : Call} {x : Node} (h : OnNode c x) : func C ia cmd c ≠ .ret 0 ↔ x.Stops C ia cmd := by
  obtain ⟨hcont, hskip⟩ := macros_of_plink_c
  have hcpup : ftw_cpup C ia c ≠ .ret 0 ↔
      x.name = AUFS_WH_PLINKDIR ∨ (x.st.mode ≠ .dir ∧ x.st.ino ∈ ia ∧ C.run x.path x.st = false) := by
    unfold ftw_cpup ia_test
    rw [h.name, h.path, h.st, hcont, hskip]
    by_cases hname : x.name = AUFS_WH_PLINKDIR
    · simp [hname]
    · by_cases hdir : x.st.mode = .dir
      · simp [hname, hdir, h.type.2 hdir]
      · have hty := mt h.type.1 hdir
        by_cases hfail : x.st.ino ∈ ia ∧ C.run x.path x.st = false
        · simp [hname, hdir, hty, hfail]
        · have hb : ¬ (ia.contains x.st.ino && !C.run x.path x.st) = true := by simpa using hfail
          rw [if_neg hname, if_neg hty, if_neg hb]
          simp only [ne_eq, not_true_eq_false, hname, hdir, not_false_eq_true, true_and, false_or, false_iff]
          exact hfail
  cases cmd with
  | flush => exact hcpup.trans (by simp [Node.Stops])
  | cpup => exact hcpup.trans (by simp [Node.Stops])
  | list =>
    simp only [func, ftw_list, h.name, Node.Stops, hcont, hskip]
    by_cases hname : x.name = AUFS_WH_PLINKDIR
    · simp [hname]
    · simp [hname]

theorem played_cons {c : Call} {x : Node} {es : List Event} {xs : List Node} (hc : OnNode c x)
    (h : ¬ x.Stops C ia cmd → Played C ia cmd es xs) : Played C ia cmd (.call c :: es) (x :: xs) := by
  by_cases hs : x.Stops C ia cmd
  · have hfn := (func_stops hc).2 hs
    refine ⟨?_, ?_⟩
    · rw [play_stop hfn, upto, if_pos hs]
      simp [hc.path]
    · rw [play_stop hfn]
      exact ⟨fun h0 => absurd h0 hfn, fun hall => absurd hs (hall x List.mem_cons_self)⟩
  · have hfn : func C ia cmd c = .ret 0 := by
      by_contra hne
      exact hs ((func_stops hc).1 hne)
    refine ⟨?_, ?_⟩
    · rw [play_on hfn, upto, if_neg hs, List.map_cons, List.map_cons, (h hs).calls, hc.path]
    · rw [play_on hfn, (h hs).ret, List.forall_mem_cons]
      exact (and_iff_right hs).symm

/-- the entries of a directory, one after the other -/
theorem names_played {n : ℕ} {hist : List History} {path : Bytes} (hend : path.getLast? ≠ some 47) (names : List Bytes)
    (hd : ∀ d ∈ names, dots d = false → (child path d).length < PATH_MAX ∧
      Played C ia cmd (trail W n hist (child path d)) (nodes W n d (child path d))) :
    Played C ia cmd (trail_names (trail W n hist) path names)
      (names.flatMap fun d => if dots d then [] else nodes W n d (child path d)) := by
  induction names with
  | nil => exact played_nil
  | cons d ds ih =>
    have hrest := ih fun d' hd' => hd d' (List.mem_cons_of_mem d hd')
    rw [List.flatMap_cons, trail_names]
    cases hdots : dots d with
    | true => exact hrest
    | false =>
      obtain ⟨hlen, hplay⟩ := hd d List.mem_cons_self hdots
      have hput : put_name path (trimmed path) d = child path d := by
        unfold put_name trimmed child
        rw [if_neg hend, List.take_length]
      have hshort : ¬ d.length ≥ PATH_MAX - path.length := by
        unfold child at hlen
        rw [List.length_append, List.length_cons] at hlen
        omega
      rw [if_neg (by simp), if_neg hshort, if_neg (by simp), hput]
      exact played_append hplay hrest

/-- the type of a node of the tree -/
def type_of : Mode → Typeflag
  | .dir => .D
  | .lnk => .SL
  | .other => .F

theorem type_of_dir (m : Mode) : (type_of m = .D ∨ type_of m = .DNR) ↔ m = .dir := by
  cases m <;> simp [type_of]

theorem node_type_ok {path : Bytes} {st : Stat} (hst : W.lstat path = .ok st)
    (hread : st.mode = .dir → W.readable path = true) :
    node_type W plink_flags path = some (st, type_of st.mode) := by
  obtain ⟨hphys, -, hdepth, -⟩ := plink_flags_bits
  simp only [node_type, hphys, if_true, hst, hdepth]
  cases hm : st.mode with
  | dir => simp [hread hm, type_of]
  | lnk => rfl
  | other => rfl

/-- the history of a walk that is inside these directories -/
structure Inside (dev : ℕ) (above : List ℕ) (hist : List History) : Prop where
  dev : ∀ p ∈ hist, p.dev = dev
  ino : ∀ p ∈ hist, p.ino ∈ above

/-- what the walk meets at a node of the tree: the node, and its entries if it is a directory -/
structure MeetsDir (W : World) (dev n : ℕ) (above : List ℕ) (hist : List History) (path : Bytes) (st : Stat) (c : Call)
    (names : List Bytes) (new : History) : Prop where
  opendir : W.opendir path = .ok names
  entries : ∀ d ∈ names, dots d = false → d ≠ [] ∧ 47 ∉ d ∧ DirTree W dev n (st.ino :: above) (child path d)
  base : new.base = path.length + 1
  inside : Inside dev (st.ino :: above) (new :: hist)
  trail : trail W (n + 1) hist path = .call c :: trail_names (trail W n (new :: hist)) path names

theorem trail_node {n : ℕ} {above : List ℕ} {hist : List History} {path : Bytes} (ht : DirTree W dev (n + 1) above path)
    (hh : Inside dev above hist) :
    ∃ st c, W.lstat path = .ok st ∧ c.path = path ∧ c.st = st ∧
      c.base = (hist.head?.map History.base).getD (root_base path) ∧ ((c.type = .D ∨ c.type = .DNR) ↔ st.mode = .dir) ∧
      ((st.mode ≠ .dir ∧ trail W (n + 1) hist path = [.call c]) ∨
        (st.mode = .dir ∧ ∃ names new, MeetsDir W dev n above hist path st c names new)) := by
  obtain ⟨-, st, hst, hdev, hdir⟩ := ht
  have hsamedev : ¬ (hist.head?.any fun p => st.dev != p.dev) = true := by
    cases hist with
    | nil => simp
    | cons p ps => simp [hh.dev p List.mem_cons_self, hdev]
  let c : Call := ⟨path, st, type_of st.mode, (hist.head?.map fun p => p.level + 1).getD 0,
    (hist.head?.map History.base).getD (root_base path)⟩
  let new : History := ⟨st.dev, st.ino, (hist.head?.map fun p => p.level + 1).getD 0, path.length + 1⟩
  have htrail : trail W (n + 1) hist path = .call c ::
      if hist.any fun p => p.dev == st.dev && p.ino == st.ino then []
      else trail_dir W (some (trail W n (new :: hist))) (type_of st.mode) path := by
    simp only [trail, trail_body, node_type_ok hst fun hm => (hdir hm).2.1]
    rw [if_neg hsamedev]
    rfl
  refine ⟨st, c, hst, rfl, rfl, rfl, type_of_dir st.mode, ?_⟩
  by_cases hm : st.mode = .dir
  · right
    obtain ⟨hino, -, names, hnames, hsub⟩ := hdir hm
    have hnew : ¬ (hist.any fun p => p.dev == st.dev && p.ino == st.ino) = true := by
      simp only [List.any_eq_true, Bool.and_eq_true, beq_iff_eq, not_exists, not_and]
      intro p hp _ he
      exact hino (he ▸ hh.ino p hp)
    refine ⟨hm, names, new, hnames, hsub, rfl, ⟨?_, ?_⟩, ?_⟩
    · exact List.forall_mem_cons.2 ⟨hdev, hh.dev⟩
    · exact List.forall_mem_cons.2 ⟨List.mem_cons_self, fun p hp => List.mem_cons_of_mem _ (hh.ino p hp)⟩
    · rw [htrail, if_neg hnew, trail_dir, if_pos (Or.inl (by rw [hm]; rfl)), hnames]
  · left
    refine ⟨hm, ?_⟩
    have hty : ¬ (type_of st.mode = .D ∨ type_of st.mode = .DP) := by
      cases hs : st.mode with
      | dir => exact absurd hs hm
      | lnk => simp [type_of]
      | other => simp [type_of]
    rw [htrail, trail_dir, if_neg hty]
    split_ifs <;> rfl

theorem child_last {path d : Bytes} (hne : d ≠ []) (hd : 47 ∉ d) : (child path d).getLast? ≠ some 47 := by
  unfold child
  intro h
  rw [List.getLast?_append, List.getLast?_cons] at h
  cases hl : d.getLast? with
  | none => exact hne (List.getLast?_eq_none_iff.1 hl)
  | some x =>
    rw [hl] at h
    have hx : x = 47 := by simpa using h
    exact hd (hx ▸ List.mem_of_getLast? hl)

theorem child_name (path d : Bytes) : (child path d).drop (path.length + 1) = d := by
  unfold child
  rw [List.drop_append]
  simp

theorem dirTree_length {n : ℕ} {above : List ℕ} {path : Bytes} (ht : DirTree W dev n above path) :
    path.length < PATH_MAX := by
  cases n with
  | zero => exact ht.elim
  | succ n => exact ht.1

/-- **A subtree.** The callback is called on its nodes up to the first one that stops the walk. -/
theorem node_played (n : ℕ) : ∀ (above : List ℕ) (hist : List History) (path name : Bytes), DirTree W dev n above path →
    Inside dev above hist → path.getLast? ≠ some 47 →
    path.drop ((hist.head?.map History.base).getD (root_base path)) = name →
      Played C ia cmd (trail W n hist path) (nodes W n name path) := by
  induction n with
  | zero => exact fun _ _ _ _ ht => ht.elim
  | succ n ih =>
    intro above hist path name ht hh hend hname
    obtain ⟨st, c, hst, hpath, hcst, hbase, hty, hcase⟩ := trail_node ht hh
    have hon : OnNode c ⟨path, name, st⟩ := ⟨hpath, hcst, by rw [hpath, hbase, hname], hty⟩
    rcases hcase with ⟨hm, htr⟩ | ⟨hm, names, new, hdir⟩
    · rw [htr, nodes_leaf hst fun hn => hm hn.1]
      exact played_cons hon fun _ => played_nil
    · rw [hdir.trail]
      by_cases hne : name = AUFS_WH_PLINKDIR
      · rw [nodes_leaf hst fun hn => hn.2 hne]
        exact played_cons hon fun hns => absurd (Or.inl hne) hns
      · rw [nodes_dir hst hm hne hdir.opendir]
        refine played_cons hon fun _ => names_played hend names ?_
        intro d hd hdots
        obtain ⟨hdne, hslash, hsub⟩ := hdir.entries d hd hdots
        refine ⟨dirTree_length hsub, ih _ _ _ d hsub hdir.inside (child_last hdne hslash) ?_⟩
        simp only [List.head?_cons, Option.map_some, Option.getD_some, hdir.base]
        exact child_name path d

end Walk

/-! ## The whole walk -/

/-- nothing stops the walk before its last node; and if the root itself bears the name, behind a
'/', it has no entries -/
structure Unstopped (W : World) (C : Chown) (ia : List ℕ) (cmd : Cmd) (n : ℕ) (root : Bytes) : Prop where
  unnamed : basename root = AUFS_WH_PLINKDIR → strrchr root 47 ≠ none → ∀ st, W.lstat root = .ok st → st.mode = .dir →
    ∀ names, W.opendir root = .ok names → ∀ d ∈ names, dots d = true
  others : ∀ x ∈ (nodes W n (basename root) root).dropLast, ¬ x.Stops C ia cmd

/-- the name that the callback sees of the root is its name, or begins with the '/' before it -/
theorem root_name (root : Bytes) :
    (strrchr root 47 = none ∧ root.drop (root_base root) = basename root) ∨
      (strrchr root 47 ≠ none ∧ root.drop (root_base root) = 47 :: basename root) := by
  unfold root_base basename
  cases hs : strrchr root 47 with
  | none => exact Or.inl ⟨rfl, rfl⟩
  | some i =>
    right
    refine ⟨by simp, ?_⟩
    obtain ⟨hi, he⟩ := List.getElem?_eq_some_iff.1 (memrchr_get hs)
    simp only [Option.getD_some, Option.map_some]
    rw [List.drop_eq_getElem_cons hi, he]

/-- nothing is left out exactly if nothing but the last node stops the walk -/
theorem perm_upto_iff {C : Chown} {ia : List ℕ} {cmd : Cmd} {xs : List Node} :
    ((upto (Node.Stops C ia cmd) xs).map Node.path).Perm (xs.map Node.path) ↔
      ∀ x ∈ xs.dropLast, ¬ x.Stops C ia cmd := by
  rw [← length_upto]
  refine ⟨?_, ?_⟩
  · intro h
    simpa using h.length_eq
  · intro h
    rw [(upto_initial _ xs).eq_of_length h]

/-- every node of the tree is visited, if it is to be -/
theorem nodes_ne_nil {W : World} {dev n : ℕ} {above : List ℕ} {path : Bytes} (ht : DirTree W dev n above path)
    (name : Bytes) : nodes W n name path ≠ [] := by
  cases n with
  | zero => exact ht.elim
  | succ n =>
    obtain ⟨-, st, hst, -⟩ := ht
    simp only [nodes, hst]
    exact List.cons_ne_nil _ _

section Root

variable {W : World} {dev n : ℕ} {root : Bytes} (ht : DirTree W dev n [] root)
include ht

theorem calls_eq (C : Chown) (ia : List ℕ) (cmd : Cmd) (hend : root.getLast? ≠ some 47) :
    (au_nftw W root (func C ia cmd) n plink_flags).calls.map Call.path =
      (upto (Node.Stops C ia cmd) (nodes W n (root.drop (root_base root)) root)).map Node.path := by
  have hn : n ≠ 0 := by
    rintro rfl
    exact ht
  have hlen : ¬ root.length > PATH_MAX := by
    have := dirTree_length ht
    omega
  have hplay := do_nftw_play W (func C ia cmd) n [] root
  rw [au_nftw, if_neg hn, if_neg hlen, hplay.calls]
  exact (node_played n [] [] root _ ht ⟨by simp, by simp⟩ hend rfl).calls

/-- a root that does not bear the name is known by any other name -/
theorem upto_renamed (C : Chown) (ia : List ℕ) (cmd : Cmd) (name name' : Bytes) (h : name ≠ AUFS_WH_PLINKDIR)
    (h' : name' ≠ AUFS_WH_PLINKDIR) :
    (upto (Node.Stops C ia cmd) (nodes W n name root)).map Node.path =
      (upto (Node.Stops C ia cmd) (nodes W n name' root)).map Node.path := by
  cases n with
  | zero => exact ht.elim
  | succ n =>
    obtain ⟨-, st, hst, -⟩ := ht
    simp only [nodes, hst, h, h', not_false_eq_true, ne_eq, and_true, upto, Node.Stops, false_or]
    split_ifs <;> rfl

/-- a root that bears the name behind a '/' is not known to the callback: its entries are visited -/
theorem unrecognised_root (C : Chown) (ia : List ℕ) (cmd : Cmd) (name : Bytes) (h : name ≠ AUFS_WH_PLINKDIR) :
    ((upto (Node.Stops C ia cmd) (nodes W n name root)).map Node.path).Perm [root] ↔
      ∀ st, W.lstat root = .ok st → st.mode = .dir → ∀ names, W.opendir root = .ok names → ∀ d ∈ names, dots d = true := by
  cases n with
  | zero => exact ht.elim
  | succ n =>
    obtain ⟨-, st, hst, -, hdir⟩ := ht
    by_cases hm : st.mode = .dir
    · obtain ⟨-, -, names, hop, hsub⟩ := hdir hm
      have hx : ¬ Node.Stops C ia cmd ⟨root, name, st⟩ := by
        rintro (hn | ⟨-, hnd, -⟩)
        · exact h hn
        · exact hnd hm
      have hkids : names.flatMap (fun d => if dots d then [] else nodes W n d (child root d)) = [] ↔
          ∀ d ∈ names, dots d = true := by
        rw [List.flatMap_eq_nil_iff]
        refine forall₂_congr fun d hd => ?_
        cases hdots : dots d with
        | true => simp
        | false => simpa using nodes_ne_nil (hsub d hd hdots).2.2 d
      rw [nodes_dir hst hm h hop, upto, if_neg hx]
      calc (List.map Node.path (_ :: upto (Node.Stops C ia cmd) _)).Perm [root]
          ↔ names.flatMap (fun d => if dots d then [] else nodes W n d (child root d)) = [] := by
            rw [← upto_eq_nil (Node.Stops C ia cmd), List.map_cons]
            refine ⟨?_, ?_⟩
            · intro hperm
              have hlen := hperm.length_eq
              simpa using hlen
            · intro hnil
              rw [hnil]
              exact List.Perm.refl _
        _ ↔ ∀ d ∈ names, dots d = true := hkids
        _ ↔ _ := by
            simp only [hst, hop, Except.ok.injEq, forall_eq', hm, true_imp_iff]
    · rw [nodes_leaf hst fun hn => hm hn.1, upto]
      refine ⟨?_, ?_⟩
      · intro _ st' hst' hm'
        rw [hst, Except.ok.injEq] at hst'
        exact absurd (hst' ▸ hm') hm
      · intro _
        split_ifs <;> exact List.Perm.refl _

end Root

/-- **Pruning prunes only the plink directory, exactly when the walk is not stopped.** On a tree without obstacles the
callback is called exactly once on every node that is not below a directory named AUFS_WH_PLINKDIR, and on no other,
exactly if none of these nodes but the last stops the walk, and a root of that name has no entries. -/
theorem prunes_only_plinkdir_iff (W : World) (dev n : ℕ) (root : Bytes) (C : Chown) (ia : List ℕ) (cmd : Cmd)
    (ht : DirTree W dev n [] root) (hend : root.getLast? ≠ some 47) :
    ((au_nftw W root (func C ia cmd) n plink_flags).calls.map Call.path).Perm
        ((nodes W n (basename root) root).map Node.path) ↔ Unstopped W C ia cmd n root := by
  rw [calls_eq ht C ia cmd hend]
  by_cases hquirk : basename root = AUFS_WH_PLINKDIR ∧ strrchr root 47 ≠ none
  · obtain ⟨hb, hs⟩ := hquirk
    have hone : ∃ st, nodes W n (basename root) root = [⟨root, basename root, st⟩] := by
      cases n with
      | zero => exact ht.elim
      | succ n =>
        obtain ⟨-, st, hst, -⟩ := ht
        exact ⟨st, nodes_leaf hst fun hn => hn.2 hb⟩
    obtain ⟨st, hE⟩ := hone
    have hn : root.drop (root_base root) = 47 :: basename root := by
      rcases root_name root with ⟨hnone, -⟩ | ⟨-, hn⟩
      · exact absurd hnone hs
      · exact hn
    rw [hn, hE]
    refine (unrecognised_root ht C ia cmd _ (by simp [AUFS_WH_PLINKDIR])).trans ⟨?_, fun h => h.unnamed hb hs⟩
    intro h
    exact ⟨fun _ _ => h, by rw [hE]; simp⟩
  · have hsame : (upto (Node.Stops C ia cmd) (nodes W n (root.drop (root_base root)) root)).map Node.path =
        (upto (Node.Stops C ia cmd) (nodes W n (basename root) root)).map Node.path := by
      rcases root_name root with ⟨-, hn⟩ | ⟨hs, hn⟩
      · rw [hn]
      · rw [hn]
        refine upto_renamed ht C ia cmd _ _ (by simp [AUFS_WH_PLINKDIR]) fun hb => hquirk ⟨hb, hs⟩
    rw [hsame, perm_upto_iff]
    exact ⟨fun h => ⟨fun hb hs => absurd ⟨hb, hs⟩ hquirk, h⟩, fun h => h.others⟩

/-- "/m" with the plink directory, one pseudo-link in it, and a file "a"; readdir of "/m" returns `names` -/
def smallMount (names : List Bytes) : World :=
  let lstat : Bytes → Except Errno Stat := fun p =>
    if p = [47, 109] then .ok ⟨1, 2, .dir⟩
    else if p = child [47, 109] AUFS_WH_PLINKDIR then .ok ⟨1, 3, .dir⟩
    else if p = child (child [47, 109] AUFS_WH_PLINKDIR) [52, 46, 50] then .ok ⟨1, 4, .other⟩
    else if p = child [47, 109] [97] then .ok ⟨1, 5, .other⟩
    else .error .enoent
  { lstat := lstat
    stat := lstat
    junk := fun _ => ⟨0, 0, .other⟩
    readable := fun _ => true
    opendir := fun p =>
      if p = [47, 109] then .ok names
      else if p = child [47, 109] AUFS_WH_PLINKDIR then .ok [[46], [46, 46], [52, 46, 50]]
      else .error .enoent }

def allOk : Chown := ⟨fun _ => true, fun _ => true⟩

theorem smallMount_tree (names : List Bytes) (h : ∀ d ∈ names, dots d = true ∨ d = AUFS_WH_PLINKDIR ∨ d = [97]) :
    DirTree (smallMount names) 1 3 [] [47, 109] := by
  refine ⟨by decide, ⟨1, 2, .dir⟩, by simp [smallMount], rfl, fun _ => ⟨by simp, rfl, names, by simp [smallMount], ?_⟩⟩
  intro d hd hdots
  rcases h d hd with hd | rfl | rfl
  · rw [hd] at hdots
    cases hdots
  · refine ⟨by decide, by decide, by decide, ⟨1, 3, .dir⟩, rfl, rfl, fun _ => ⟨by decide, rfl, _, rfl, ?_⟩⟩
    intro d hd hdots
    fin_cases hd
    · cases hdots
    · cases hdots
    · exact ⟨by decide, by decide, by decide, ⟨1, 4, .other⟩, rfl, rfl, fun hm => by cases hm⟩
  · exact ⟨by decide, by decide, by decide, ⟨1, 5, .other⟩, rfl, rfl, fun hm => by cases hm⟩

/-- the plink directory comes last -/
theorem prunes_plinkdir_last :
    ((au_nftw (smallMount [[46], [46, 46], [97], AUFS_WH_PLINKDIR]) [47, 109] (func allOk [4] .flush) 3
      plink_flags).calls.map Call.path).Perm [[47, 109], child [47, 109] [97], child [47, 109] AUFS_WH_PLINKDIR] :=
  (prunes_only_plinkdir_iff (smallMount [[46], [46, 46], [97], AUFS_WH_PLINKDIR]) 1 3 [47, 109] allOk [4] .flush
    (smallMount_tree _ (by decide)) (by decide)).2
    ⟨fun hb => absurd hb (by decide), by decide +kernel⟩

/-- the plink directory comes first: "a" is never seen -/
theorem siblings_skipped :
    ¬ ∀ (W : World) (dev n : ℕ) (root : Bytes) (C : Chown) (ia : List ℕ) (cmd : Cmd), DirTree W dev n [] root →
      root.getLast? ≠ some 47 →
        ((au_nftw W root (func C ia cmd) n plink_flags).calls.map Call.path).Perm
          ((nodes W n (basename root) root).map Node.path) := by
  intro h
  have hperm := h (smallMount [[46], [46, 46], AUFS_WH_PLINKDIR, [97]]) 1 3 [47, 109] allOk [4] .list
    (smallMount_tree _ (by decide)) (by decide)
  have hlen := hperm.length_eq
  revert hlen
  decide +kernel

end AufsUtil.Plink
