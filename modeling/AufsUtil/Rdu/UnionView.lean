/-
The merged view of a stack of branches, and that rdu_merge computes it.

A stack is a list of branches, topmost first; a branch is the list of its directory entries in any order. The view of
the stack (`InView`) is stated on its own, in the words of the manual's VDIR section: readdir merges the entries of all
branches and eliminates the whiteout-ed ones.
- a name that is not a whiteout name is visible if some branch holds it and no branch above that one holds its
  whiteout (`Visible`);
- a whiteout name is part of the view only when whiteouts are shown (`shwh`);
- the entry of a name is the one of the topmost branch that holds it (`topmost`).

`merge_union_view`: for every stack in which no single branch holds both X and .wh.X (a branch that auchk finds no
illegal whiteout in), rdu_merge on the concatenation of the branches records exactly the view, each name once, and the
names it records do not depend on the order of the entries inside the branches, nor on how tsearch balances its trees.

Premises: tsearch and tfind are search trees (`MergeEnv.reb_toList`); names are non-empty and NUL-free (`RduEnt`).
-/
import Mathlib.Tactic
import AufsUtil.Rdu.Merge

namespace AufsUtil.Rdu

open AufsUtil.CStr

/-! ## The view -/

def Holds (B : List RduEnt) (X : Bytes) : Prop := ∃ e ∈ B, e.name = X

instance (B : List RduEnt) (X : Bytes) : Decidable (Holds B X) := by
  unfold Holds; infer_instance

/-- no branch holds both a name and its whiteout -/
def NoIllegalWh (Bs : List (List RduEnt)) : Prop :=
  ∀ B ∈ Bs, ∀ X : Bytes, X ≠ [] → ¬ (Holds B X ∧ Holds B (AUFS_WH_PFX ++ X))

/-- the entry named X of the topmost branch that holds X -/
def topmost (Bs : List (List RduEnt)) (X : Bytes) : Option RduEnt :=
  (Bs.find? fun B => decide (Holds B X)).bind fun B => B.find? fun e => e.name = X

/-- some branch holds X, and no branch above it holds .wh.X -/
def Visible (Bs : List (List RduEnt)) (X : Bytes) : Prop :=
  ∃ k, ∃ hk : k < Bs.length, Holds Bs[k] X ∧ ∀ j, ∀ hj : j < k, ¬ Holds Bs[j] (AUFS_WH_PFX ++ X)

/-- is the name X part of the view? -/
def InView (shwh : Bool) (Bs : List (List RduEnt)) (X : Bytes) : Prop :=
  (WhName X ∧ shwh = true ∧ ∃ B ∈ Bs, Holds B X) ∨ (¬ WhName X ∧ Visible Bs X)

theorem topmost_eq_find (Bs : List (List RduEnt)) (X : Bytes) :
    topmost Bs X = Bs.flatten.find? fun e => e.name = X := by
  induction Bs with
  | nil => rfl
  | cons B Bs ih =>
    rw [List.flatten_cons, List.find?_append, ← ih]
    unfold topmost
    by_cases hB : Holds B X
    · obtain ⟨e, he, heX⟩ := hB
      have hs : (B.find? fun e => e.name = X).isSome := by
        rw [List.find?_isSome]
        exact ⟨e, he, by simpa using heX⟩
      obtain ⟨f, hf⟩ := Option.isSome_iff_exists.1 hs
      rw [List.find?_cons_of_pos (by simpa using ⟨e, he, heX⟩), Option.bind_some, hf, Option.some_or]
    · have hn : (B.find? fun e => e.name = X) = none := by
        rw [List.find?_eq_none]
        intro e he heX
        exact hB ⟨e, he, by simpa using heX⟩
      rw [List.find?_cons_of_neg (by simpa using hB), hn, Option.none_or]

theorem topmost_eq_some (Bs : List (List RduEnt)) (X : Bytes) (e : RduEnt) :
    topmost Bs X = some e ↔
      e.name = X ∧ ∃ pre post, Bs.flatten = pre ++ e :: post ∧ ∀ a ∈ pre, a.name ≠ X := by
  rw [topmost_eq_find, List.find?_eq_some_iff_append]
  simp

/-- a name has a topmost entry exactly when some branch holds it -/
theorem topmost_exists (Bs : List (List RduEnt)) (X : Bytes) :
    (∃ e, topmost Bs X = some e ∧ e.name = X) ↔ ∃ B ∈ Bs, Holds B X := by
  refine ⟨?_, ?_⟩
  · rintro ⟨e, he, heX⟩
    obtain ⟨-, pre, post, hfl, -⟩ := (topmost_eq_some Bs X e).1 he
    have hmem : e ∈ Bs.flatten := by rw [hfl]; simp
    obtain ⟨B, hB, heB⟩ := List.mem_flatten.1 hmem
    exact ⟨B, hB, e, heB, heX⟩
  · rintro ⟨B, hB, e, he, heX⟩
    have hs : (topmost Bs X).isSome := by
      rw [topmost_eq_find, List.find?_isSome]
      exact ⟨e, List.mem_flatten.2 ⟨B, hB, he⟩, by simpa using heX⟩
    obtain ⟨f, hf⟩ := Option.isSome_iff_exists.1 hs
    exact ⟨f, hf, ((topmost_eq_some Bs X f).1 hf).1⟩

/-- an entry of the concatenation lies in a branch, behind the branches above it -/
theorem flatten_split (Bs : List (List RduEnt)) :
    ∀ (pre post : List RduEnt) (e : RduEnt), Bs.flatten = pre ++ e :: post →
      ∃ Cs pre' post' Ds, Bs = Cs ++ (pre' ++ e :: post') :: Ds ∧ pre = Cs.flatten ++ pre' := by
  induction Bs with
  | nil => intro pre post e h; simp at h
  | cons B Bs ih =>
    intro pre post e h
    rw [List.flatten_cons, List.append_eq_append_iff] at h
    rcases h with ⟨pre', rfl, hfl⟩ | ⟨tl, rfl, hfl⟩
    · obtain ⟨Cs, pre'', post', Ds, rfl, rfl⟩ := ih pre' post e hfl
      exact ⟨B :: Cs, pre'', post', Ds, rfl, by simp⟩
    · cases tl with
      | nil =>
        obtain ⟨Cs, pre'', post', Ds, rfl, hnil⟩ := ih [] post e hfl.symm
        exact ⟨(pre ++ []) :: Cs, pre'', post', Ds, rfl, by rw [List.flatten_cons, List.append_assoc, ← hnil]; simp⟩
      | cons f tl =>
        simp only [List.cons_append, List.cons.injEq] at hfl
        obtain ⟨rfl, -⟩ := hfl
        exact ⟨[], pre, tl, Bs, rfl, rfl⟩

/-- at the first entry named X of the concatenation: X is visible exactly when no entry before it is .wh.X. The wall
between "before it" and "in a branch above" is the entry's own branch, which holds no .wh.X. -/
theorem visible_iff_before (Bs : List (List RduEnt)) (hwf : NoIllegalWh Bs) (pre post : List RduEnt) (e : RduEnt)
    (hfl : Bs.flatten = pre ++ e :: post) (hfirst : ∀ a ∈ pre, a.name ≠ e.name) :
    Visible Bs e.name ↔ ∀ a ∈ pre, a.name ≠ AUFS_WH_PFX ++ e.name := by
  obtain ⟨Cs, pre', post', Ds, rfl, rfl⟩ := flatten_split Bs pre post e hfl
  have hown : Holds (pre' ++ e :: post') e.name := ⟨e, by simp, rfl⟩
  have hlen : Cs.length < (Cs ++ (pre' ++ e :: post') :: Ds).length := by simp
  have hat : (Cs ++ (pre' ++ e :: post') :: Ds)[Cs.length] = pre' ++ e :: post' := by simp
  have hbelow : ∀ j, ∀ hj : j < Cs.length,
      (Cs ++ (pre' ++ e :: post') :: Ds)[j] = Cs[j] := fun j hj => List.getElem_append_left hj
  refine ⟨?_, fun hno => ⟨Cs.length, hlen, by rw [hat]; exact hown, ?_⟩⟩
  · rintro ⟨k, hk, hkX, hno⟩ a ha haX
    -- the branch k that makes X visible is not above the branch of e, where X occurs first
    have hle : Cs.length ≤ k := by
      by_contra hlt
      obtain ⟨b, hb, hbX⟩ := hkX
      rw [hbelow k (by omega)] at hb
      refine hfirst b (List.mem_append_left _ (List.mem_flatten.2 ⟨_, List.getElem_mem _, hb⟩)) hbX
    rcases List.mem_append.1 ha with ha | ha
    · obtain ⟨C, hC, haC⟩ := List.mem_flatten.1 ha
      obtain ⟨j, hj, rfl⟩ := List.getElem_of_mem hC
      exact hno j (by omega) (by rw [hbelow j hj]; exact ⟨a, haC, haX⟩)
    · exact hwf (pre' ++ e :: post') (by simp) e.name e.name_ne ⟨hown, a, by simp [ha], haX⟩
  · intro j hj
    rw [hbelow j hj]
    intro ⟨a, ha, haX⟩
    exact hno a (List.mem_append_left _ (List.mem_flatten.2 ⟨_, List.getElem_mem _, ha⟩)) haX

/-! ## The recorded entries -/

theorem mem_recorded (shwh : Bool) (es : List RduEnt) :
    ∀ (seen : List Bytes) (u : ℕ) (e : RduEnt),
      e ∈ (recorded shwh seen u es).map Cell.ent ↔
        ∃ pre e₀ post, es = pre ++ e₀ :: post ∧ e = e₀.mark ∧ Shown shwh (seen ++ pre.map RduEnt.name) e₀.name := by
  induction es with
  | nil => intro seen u e; simp [recorded]
  | cons f es ih =>
    intro seen u e
    rw [recorded, List.map_append, List.mem_append, ih]
    refine ⟨?_, ?_⟩
    · intro h
      rcases h with h | ⟨pre, e₀, post, rfl, he, hsh⟩
      · split_ifs at h with hsh
        · simp only [List.map_cons, List.map_nil, List.mem_singleton] at h
          exact ⟨[], f, es, rfl, h, by simpa using hsh⟩
        · simp at h
      · exact ⟨f :: pre, e₀, post, rfl, he, by simpa using hsh⟩
    · rintro ⟨pre, e₀, post, hes, he, hsh⟩
      cases pre with
      | nil =>
        simp only [List.nil_append, List.cons.injEq] at hes
        obtain ⟨rfl, rfl⟩ := hes
        left
        rw [if_pos (by simpa using hsh)]
        simpa using he
      | cons g pre =>
        simp only [List.cons_append, List.cons.injEq] at hes
        obtain ⟨rfl, rfl⟩ := hes
        exact Or.inr ⟨pre, e₀, post, rfl, he, by simpa using hsh⟩

theorem recorded_nodup (shwh : Bool) (es : List RduEnt) :
    ∀ (seen : List Bytes) (u : ℕ), ((recorded shwh seen u es).map fun c => c.ent.name).Nodup ∧
      ∀ X ∈ (recorded shwh seen u es).map fun c => c.ent.name, X ∉ seen := by
  induction es with
  | nil => intro seen u; simp [recorded]
  | cons f es ih =>
    intro seen u
    obtain ⟨hnd, hns⟩ := ih (seen ++ [f.name]) (u + au_rdu_len f.nlen)
    have hns' : ∀ X ∈ (recorded shwh (seen ++ [f.name]) (u + au_rdu_len f.nlen) es).map fun c => c.ent.name,
        X ∉ seen ∧ X ≠ f.name := by
      intro X hX
      have := hns X hX
      simp only [List.mem_append, List.mem_singleton, not_or] at this
      exact this
    rw [recorded]
    split_ifs with hsh
    · refine ⟨?_, ?_⟩
      · rw [List.singleton_append, List.map_cons, List.nodup_cons]
        exact ⟨fun hm => (hns' _ hm).2 rfl, hnd⟩
      · intro X hX
        rw [List.singleton_append, List.map_cons, List.mem_cons] at hX
        rcases hX with rfl | hX
        · exact hsh.1
        · exact (hns' X hX).1
    · exact ⟨hnd, fun X hX => (hns' X hX).1⟩

/-- an entry of the concatenation is recorded exactly when it is the topmost entry of a name of the view -/
theorem shown_iff_view (shwh : Bool) (Bs : List (List RduEnt)) (hwf : NoIllegalWh Bs) (e₀ : RduEnt) :
    (∃ pre post, Bs.flatten = pre ++ e₀ :: post ∧ Shown shwh (pre.map RduEnt.name) e₀.name) ↔
      topmost Bs e₀.name = some e₀ ∧ InView shwh Bs e₀.name := by
  have hpre : ∀ (pre : List RduEnt) (X : Bytes), X ∉ pre.map RduEnt.name ↔ ∀ a ∈ pre, a.name ≠ X := by simp
  refine ⟨?_, ?_⟩
  · rintro ⟨pre, post, hfl, hnew, hwh, hpl⟩
    have hfirst := (hpre pre _).1 hnew
    refine ⟨(topmost_eq_some Bs _ e₀).2 ⟨rfl, pre, post, hfl, hfirst⟩, ?_⟩
    by_cases hw : WhName e₀.name
    · have hmem : e₀ ∈ Bs.flatten := by rw [hfl]; simp
      obtain ⟨B, hB, heB⟩ := List.mem_flatten.1 hmem
      exact Or.inl ⟨hw, hwh hw, B, hB, e₀, heB, rfl⟩
    · exact Or.inr ⟨hw, (visible_iff_before Bs hwf pre post e₀ hfl hfirst).2 ((hpre pre _).1 (hpl hw))⟩
  · rintro ⟨htop, hview⟩
    obtain ⟨-, pre, post, hfl, hfirst⟩ := (topmost_eq_some Bs _ e₀).1 htop
    refine ⟨pre, post, hfl, (hpre pre _).2 hfirst, fun hw => ?_, fun hw => ?_⟩
    · rcases hview with ⟨-, hs, -⟩ | ⟨hn, -⟩
      · exact hs
      · exact absurd hw hn
    · rcases hview with ⟨hw', -⟩ | ⟨-, hv⟩
      · exact absurd hw' hw
      · exact (hpre pre _).2 ((visible_iff_before Bs hwf pre post e₀ hfl hfirst).1 hv)

/-! ## The view does not depend on the order inside the branches -/

theorem holds_perm {B B' : List RduEnt} (h : B.Perm B') (X : Bytes) : Holds B X ↔ Holds B' X := by
  unfold Holds
  simp only [h.mem_iff]

theorem noIllegalWh_perm {Bs Bs' : List (List RduEnt)} (h : List.Forall₂ List.Perm Bs Bs') (hwf : NoIllegalWh Bs) :
    NoIllegalWh Bs' := by
  intro B' hB' X hX hboth
  obtain ⟨k, hk, rfl⟩ := List.getElem_of_mem hB'
  have hk' : k < Bs.length := by rw [h.length_eq]; exact hk
  have hp := h.get hk' hk
  exact hwf Bs[k] (List.getElem_mem _) X hX ⟨(holds_perm hp X).2 hboth.1, (holds_perm hp _).2 hboth.2⟩

theorem inView_perm {Bs Bs' : List (List RduEnt)} (h : List.Forall₂ List.Perm Bs Bs') (shwh : Bool) (X : Bytes)
    (hv : InView shwh Bs X) : InView shwh Bs' X := by
  have hlen := h.length_eq
  rcases hv with ⟨hw, hs, B, hB, hBX⟩ | ⟨hw, k, hk, hkX, hno⟩
  · obtain ⟨k, hk, rfl⟩ := List.getElem_of_mem hB
    exact Or.inl ⟨hw, hs, Bs'[k], List.getElem_mem _, (holds_perm (h.get hk (by omega)) X).1 hBX⟩
  · refine Or.inr ⟨hw, k, by omega, (holds_perm (h.get hk (by omega)) X).1 hkX, fun j hj hjX => ?_⟩
    exact hno j hj ((holds_perm (h.get (by omega) (by omega)) _).2 hjX)

/-! ## Main result -/

/-- the names recorded in pos[] are the names of the view -/
theorem names_iff_view (E : MergeEnv) (shwh : Bool) (ent : ℕ) (Bs : List (List RduEnt)) (hwf : NoIllegalWh Bs)
    (hok : (rdu_merge E shwh ent Bs.flatten).1 = 0) (X : Bytes) :
    X ∈ (rdu_merge E shwh ent Bs.flatten).2.map (fun c => c.ent.name) ↔ InView shwh Bs X := by
  rw [(rdu_merge_recorded E shwh ent Bs.flatten).1 hok]
  have hmap : ∀ cs : List Cell, cs.map (fun c => c.ent.name) = (cs.map Cell.ent).map RduEnt.name := by simp
  rw [hmap, List.mem_map]
  refine ⟨?_, ?_⟩
  · rintro ⟨e, he, heX⟩
    obtain ⟨pre, e₀, post, hfl, rfl, hsh⟩ := (mem_recorded shwh _ [] ent e).1 he
    have := (shown_iff_view shwh Bs hwf e₀).1 ⟨pre, post, hfl, hsh⟩
    exact heX ▸ this.2
  · intro hv
    have hheld : ∃ B ∈ Bs, Holds B X := by
      rcases hv with ⟨-, -, hB⟩ | ⟨-, k, hk, hkX, -⟩
      · exact hB
      · exact ⟨_, List.getElem_mem hk, hkX⟩
    obtain ⟨e₀, he₀, rfl⟩ := (topmost_exists Bs X).2 hheld
    obtain ⟨pre, post, hfl, hsh⟩ := (shown_iff_view shwh Bs hwf e₀).2 ⟨he₀, hv⟩
    exact ⟨e₀.mark, (mem_recorded shwh _ [] ent _).2 ⟨pre, e₀, post, hfl, rfl, hsh⟩, rfl⟩

/-- **User-space readdir computes the union view.** On every stack of branches without illegal whiteouts, in every
order of the entries inside the branches and for both values of shwh: rdu_merge on the concatenation succeeds unless
an allocation fails, and then pos[] holds each name once, and exactly the topmost entries of the names of the view.
The set of names is the same for every reordering inside the branches. -/
theorem merge_union_view (E : MergeEnv) (shwh : Bool) (ent : ℕ) (Bs : List (List RduEnt)) (hwf : NoIllegalWh Bs) :
    (E.pos_oom = false → (∀ ul, E.tsearch_oom ul = false) → (rdu_merge E shwh ent Bs.flatten).1 = 0) ∧
    ((rdu_merge E shwh ent Bs.flatten).1 = 0 →
      ((rdu_merge E shwh ent Bs.flatten).2.map fun c => c.ent.name).Nodup ∧
      (∀ e, e ∈ (rdu_merge E shwh ent Bs.flatten).2.map Cell.ent ↔
        ∃ e₀, e = e₀.mark ∧ topmost Bs e₀.name = some e₀ ∧ InView shwh Bs e₀.name) ∧
      ∀ (E' : MergeEnv) (ent' : ℕ) (Bs' : List (List RduEnt)), List.Forall₂ List.Perm Bs Bs' →
        (rdu_merge E' shwh ent' Bs'.flatten).1 = 0 → ∀ X,
          X ∈ (rdu_merge E shwh ent Bs.flatten).2.map (fun c => c.ent.name) ↔
            X ∈ (rdu_merge E' shwh ent' Bs'.flatten).2.map (fun c => c.ent.name)) := by
  have hrec := rdu_merge_recorded E shwh ent Bs.flatten
  refine ⟨hrec.2, fun hok => ⟨?_, ?_, ?_⟩⟩
  · rw [hrec.1 hok]
    exact (recorded_nodup shwh _ [] ent).1
  · intro e
    rw [hrec.1 hok, mem_recorded]
    refine ⟨fun ⟨pre, e₀, post, hfl, he, hsh⟩ => ?_, fun ⟨e₀, he, hview⟩ => ?_⟩
    · exact ⟨e₀, he, (shown_iff_view shwh Bs hwf e₀).1 ⟨pre, post, hfl, hsh⟩⟩
    · obtain ⟨pre, post, hfl, hsh⟩ := (shown_iff_view shwh Bs hwf e₀).2 hview
      exact ⟨pre, e₀, post, hfl, he, hsh⟩
  · intro E' ent' Bs' hperm hok' X
    have hperm' : List.Forall₂ List.Perm Bs' Bs := (hperm.imp fun _ _ h => h.symm).flip
    rw [names_iff_view E shwh ent Bs hwf hok X,
      names_iff_view E' shwh ent' Bs' (noIllegalWh_perm hperm hwf) hok' X]
    exact ⟨inView_perm hperm shwh X, inView_perm hperm' shwh X⟩

/-- a C library whose trees are never rearranged and whose allocations succeed -/
def plainLibc : MergeEnv := ⟨fun _ t => t, fun _ _ => rfl, fun _ => false, false⟩

/-- two branches: the upper one whites out "a" and holds "b", the lower one holds "a", "b" and "c" -/
def twoBranches : List (List RduEnt) :=
  [[⟨11, 0, 8, false, [46, 119, 104, 46, 97], by decide, by decide, by decide⟩,
    ⟨12, 0, 8, false, [98], by decide, by decide, by decide⟩],
   [⟨21, 1, 8, false, [97], by decide, by decide, by decide⟩,
    ⟨22, 1, 8, false, [98], by decide, by decide, by decide⟩,
    ⟨23, 1, 8, false, [99], by decide, by decide, by decide⟩]]

theorem twoBranches_legal : NoIllegalWh twoBranches := by
  have hpair : ∀ B ∈ twoBranches, ∀ e ∈ B, ∀ f ∈ B, f.name ≠ AUFS_WH_PFX ++ e.name := by decide
  intro B hB X _ ⟨⟨e, he, heX⟩, f, hf, hfX⟩
  exact hpair B hB e he f hf (heX ▸ hfX)

theorem merge_union_view_twoBranches :
    NoIllegalWh twoBranches ∧
    ((rdu_merge plainLibc false 0 twoBranches.flatten).2.map fun c => (c.ent.ino, c.ent.name)) =
      [(12, [98]), (23, [99])] ∧
    ((rdu_merge plainLibc false 0 twoBranches.flatten).2.map fun c => c.ent.name).Nodup :=
  ⟨twoBranches_legal, by decide,
    ((merge_union_view plainLibc false 0 twoBranches twoBranches_legal).2
      ((merge_union_view plainLibc false 0 twoBranches twoBranches_legal).1 rfl fun _ => rfl)).1⟩

end AufsUtil.Rdu
