/-
The merge of directory entries in user space (`libau/rdu_lib.c`, rdu_merge and its comparators).

The kernel hands over the entries of all branches, the topmost branch first, whiteouts included. rdu_merge goes through
them once with two search trees, of plain names and of whiteouts: a name is recorded in pos[] unless an earlier whiteout
hides it or an earlier entry bears it; a whiteout is recorded if whiteouts are shown (shwh) and it is the first of its
name.

`rdu_merge_recorded`: pos[] then holds exactly the entries shown after the names before them (`Shown`), in order, and
the merge succeeds when no allocation fails. The invariant (`MInv`) ties the two trees to the names seen so far.

What the model keeps of C:
- the answer "this one is new" travels through the global `do_store`, which two of the three comparators assign at every
  comparison; tfind(3) and tsearch(3) thread it (`AufsUtil.SearchTree`);
- the plain tree is not asked when the whiteout tree hides the name;
- how the C library rearranges its trees, and which allocations fail, is an input (`MergeEnv`). The bytes of the buffer
  are left out: a pointer into it is its address and the entry there, and the moving together of the recorded entries
  after the loop is not part of this module.
-/
import Mathlib.Tactic
import AufsUtil.Lib.CStr
import AufsUtil.Lib.SearchTree

namespace AufsUtil.Rdu

open AufsUtil.CStr AufsUtil.SearchTree

/-! ## Entries -/

/-- ".wh." -/
def AUFS_WH_PFX : Bytes := [46, 119, 104, 46]

def AUFS_WH_PFX_LEN : ℕ := 4

/-- struct au_rdu_ent as the kernel fills it; the name is kept without its NUL and `nlen` is its length, a uint8_t -/
structure RduEnt where
  ino : ℕ
  bindex : ℤ
  type : ℕ
  wh : Bool
  name : Bytes
  name_ne : name ≠ []
  name_le : name.length ≤ 255
  nul_free : 0 ∉ name
deriving DecidableEq, Repr

def RduEnt.nlen (e : RduEnt) : ℕ := e.name.length

/-- sizeof(struct au_rdu_ent) + nlen + 1, aligned to 8 bytes -/
def au_rdu_len (nlen : ℕ) : ℕ := (16 + nlen + 1 + 7) / 8 * 8

/-- an entry and its address in the buffer: what a `struct au_rdu_ent *` points to -/
structure Cell where
  addr : ℕ
  ent : RduEnt
deriving DecidableEq, Repr

/-! ## The comparators -/

def rdu_ent_compar (a b : Cell) (_ : Bool) : Ordering × Bool :=
  let ret := strcmp a.ent.name b.ent.name
  (ret, ret != .eq)

/-- is the name treated as a plain one: not longer than ".wh.", or not starting with it -/
def plain (e : RduEnt) : Bool := e.nlen ≤ AUFS_WH_PFX_LEN || e.name.take AUFS_WH_PFX_LEN != AUFS_WH_PFX

def rdu_ent_compar_wh1 (a b : Cell) (do_store : Bool) : Ordering × Bool :=
  let ret :=
    if plain a.ent then strcmp a.ent.name (b.ent.name.drop AUFS_WH_PFX_LEN)
    else strcmp (a.ent.name.drop AUFS_WH_PFX_LEN) b.ent.name
  (ret, do_store)

def rdu_ent_compar_wh2 (a b : Cell) (_ : Bool) : Ordering × Bool :=
  let ret := strcmp (a.ent.name.drop AUFS_WH_PFX_LEN) (b.ent.name.drop AUFS_WH_PFX_LEN)
  (ret, ret != .eq)

/-! ## rdu_merge -/

/-- what the C library decides: how tsearch rearranges its tree while entry `ul` is handled, and which allocations
fail -/
structure MergeEnv where
  reb : ℕ → STree Cell → STree Cell
  reb_toList : ∀ ul t, (reb ul t).toList = t.toList
  tsearch_oom : ℕ → Bool
  pos_oom : Bool

/-- the part of struct rdu that the merge works on, and the file-global `do_store`; `pos` is the filled part of pos[],
so `idx` is its length -/
structure Merge where
  shwh : Bool
  pos : List Cell
  real : STree Cell
  wh : STree Cell
  do_store : Bool

def rdu_store (p : Merge) (c : Cell) : Merge := { p with pos := p.pos ++ [c] }

def rdu_ent_append (E : MergeEnv) (ul : ℕ) (p : Merge) (c : Cell) : ℤ × Merge :=
  match tfind rdu_ent_compar_wh1 c p.wh p.do_store with
  | (some _, s) => (0, { p with do_store := s })
  | (none, s) =>
    match tsearch rdu_ent_compar (E.reb ul) (E.tsearch_oom ul) c p.real s with
    | (true, t, s) =>
      let p := { p with real := t, do_store := s }
      (0, if p.do_store then rdu_store p c else p)
    | (false, t, s) => (-1, { p with real := t, do_store := s })

def rdu_ent_append_wh (E : MergeEnv) (ul : ℕ) (p : Merge) (c : Cell) : ℤ × Merge :=
  let c := { c with ent := { c.ent with wh := true } }
  match tsearch rdu_ent_compar_wh2 (E.reb ul) (E.tsearch_oom ul) c p.wh p.do_store with
  | (true, t, s) =>
    let p := { p with wh := t, do_store := s }
    (0, if p.shwh && p.do_store then rdu_store p c else p)
  | (false, t, s) => (-1, { p with wh := t, do_store := s })

/-- one turn of the loop: `u.e->wh = 0; do_store = 1;` and the append -/
def merge_one (E : MergeEnv) (ul u : ℕ) (e : RduEnt) (p : Merge) : ℤ × Merge :=
  let c : Cell := ⟨u, { e with wh := false }⟩
  let p := { p with do_store := true }
  if plain e then rdu_ent_append E ul p c else rdu_ent_append_wh E ul p c

/-- the loop over the npos entries of the buffer; it ends at the first error -/
def merge_loop (E : MergeEnv) : ℕ → ℕ → List RduEnt → Merge → ℤ × Merge
  | _, _, [], p => (0, p)
  | ul, u, e :: es, p =>
    let r := merge_one E ul u e p
    if r.1 = 0 then merge_loop E (ul + 1) (u + au_rdu_len e.nlen) es r.2 else r

/-- rdu_merge on a buffer at address `ent`: the error and, when it is 0, the entries in pos[] (npos is their number) -/
def rdu_merge (E : MergeEnv) (shwh : Bool) (ent : ℕ) (ents : List RduEnt) : ℤ × List Cell :=
  if E.pos_oom then (-1, []) else
  let r := merge_loop E 0 ent ents ⟨shwh, [], .leaf, .leaf, true⟩
  if r.1 = 0 then (0, r.2.pos) else (r.1, [])

/-! ## Whiteout names -/

/-- a whiteout name: it starts with ".wh." and is longer than it -/
def WhName (X : Bytes) : Prop := ∃ Y, Y ≠ [] ∧ X = AUFS_WH_PFX ++ Y

theorem whName_append (X : Bytes) (hX : X ≠ []) : WhName (AUFS_WH_PFX ++ X) := ⟨X, hX, rfl⟩

theorem whName_iff (X : Bytes) : WhName X ↔ 4 < X.length ∧ X.take 4 = AUFS_WH_PFX := by
  constructor
  · rintro ⟨Y, hY, rfl⟩
    have := List.length_pos_iff.2 hY
    exact ⟨by simp [AUFS_WH_PFX, this], rfl⟩
  · rintro ⟨hlen, hpfx⟩
    refine ⟨X.drop 4, ?_, ?_⟩
    · rw [← List.length_pos_iff, List.length_drop]
      omega
    · rw [← hpfx, List.take_append_drop]

instance (X : Bytes) : Decidable (WhName X) := decidable_of_iff _ (whName_iff X).symm

theorem plain_iff (e : RduEnt) : plain e = true ↔ ¬ WhName e.name := by
  rw [whName_iff]
  simp only [plain, Bool.or_eq_true, decide_eq_true_eq, bne_iff_ne, not_and_or, not_lt]
  rfl

/-- the name behind the prefix determines a whiteout name -/
theorem drop_eq_iff {X Y : Bytes} (hX : WhName X) : X.drop 4 = Y ↔ X = AUFS_WH_PFX ++ Y := by
  obtain ⟨Z, -, rfl⟩ := hX
  simp [AUFS_WH_PFX]

/-! ## The loop invariant -/

/-- the entry as the merge leaves it: only its `wh` flag is written -/
def RduEnt.mark (e : RduEnt) : RduEnt := { e with wh := !plain e }

/-- is an entry named X recorded after the names `seen`? A whiteout is recorded for shwh only; a plain name is hidden
by a whiteout already seen; any name is recorded once. -/
def Shown (shwh : Bool) (seen : List Bytes) (X : Bytes) : Prop :=
  X ∉ seen ∧ (WhName X → shwh = true) ∧ (¬ WhName X → AUFS_WH_PFX ++ X ∉ seen)

instance (shwh : Bool) (seen : List Bytes) (X : Bytes) : Decidable (Shown shwh seen X) := by
  unfold Shown; infer_instance

/-- what the two trees hold after the names `seen` -/
structure MInv (seen : List Bytes) (real wh : STree Cell) : Prop where
  real_ord : Ordered strcmp (fun c : Cell => c.ent.name) real
  wh_ord : Ordered strcmp (fun c : Cell => c.ent.name.drop AUFS_WH_PFX_LEN) wh
  real_sub : ∀ c ∈ real.toList, c.ent.name ∈ seen
  /-- a plain name that was seen is in the tree, unless a whiteout had hidden it -/
  real_sup : ∀ X ∈ seen, ¬ WhName X → (∃ c ∈ real.toList, c.ent.name = X) ∨ AUFS_WH_PFX ++ X ∈ seen
  wh_mem : ∀ X, (∃ c ∈ wh.toList, c.ent.name = X) ↔ X ∈ seen ∧ WhName X

theorem minv_init : MInv [] .leaf .leaf := by
  constructor <;> simp [Ordered, STree.toList]

theorem wh1_answers (c : Cell) (t : STree Cell) (hpl : plain c.ent = true) :
    Answers strcmp (fun k : Cell => k.ent.name.drop AUFS_WH_PFX_LEN) rdu_ent_compar_wh1 c.ent.name c t := by
  intro k _ s
  simp [rdu_ent_compar_wh1, hpl]

theorem compar_answers (c : Cell) (t : STree Cell) :
    Answers strcmp (fun k : Cell => k.ent.name) rdu_ent_compar c.ent.name c t := by
  intro k _ s
  rfl

theorem wh2_answers (c : Cell) (t : STree Cell) :
    Answers strcmp (fun k : Cell => k.ent.name.drop AUFS_WH_PFX_LEN) rdu_ent_compar_wh2
      (c.ent.name.drop AUFS_WH_PFX_LEN) c t := by
  intro k _ s
  rfl

section Step

variable {seen : List Bytes} {real wh : STree Cell} (h : MInv seen real wh)
include h

/-- the whiteout tree hides a plain name exactly when its whiteout was seen -/
theorem hidden_iff (c : Cell) (s : Bool) (hpl : plain c.ent = true) :
    (tfind rdu_ent_compar_wh1 c wh s).1.isSome ↔ AUFS_WH_PFX ++ c.ent.name ∈ seen := by
  rw [tfind_isSome_iff strcmp _ _ _ c wh s (wh1_answers c wh hpl) h.wh_ord]
  refine ⟨?_, ?_⟩
  · rintro ⟨k, hk, hkn⟩
    have hks := (h.wh_mem _).1 ⟨k, hk, rfl⟩
    rw [(drop_eq_iff hks.2).1 hkn] at hks
    exact hks.1
  · intro hs
    obtain ⟨k, hk, hkn⟩ := (h.wh_mem _).2 ⟨hs, whName_append _ c.ent.name_ne⟩
    exact ⟨k, hk, (drop_eq_iff (hkn ▸ whName_append _ c.ent.name_ne)).2 hkn⟩

/-- a plain name that no whiteout hides is in the tree of real names exactly when it was seen -/
theorem real_iff (X : Bytes) (hX : ¬ WhName X) (hhid : AUFS_WH_PFX ++ X ∉ seen) :
    (∃ c ∈ real.toList, c.ent.name = X) ↔ X ∈ seen := by
  refine ⟨fun ⟨c, hc, hcX⟩ => hcX ▸ h.real_sub c hc, ?_⟩
  intro hs
  exact (h.real_sup X hs hX).resolve_right hhid

/-- the whiteout tree has a node that hides what X hides exactly when the whiteout X was seen -/
theorem wh_iff (X : Bytes) (hX : WhName X) :
    (∃ c ∈ wh.toList, c.ent.name.drop AUFS_WH_PFX_LEN = X.drop AUFS_WH_PFX_LEN) ↔ X ∈ seen := by
  have hX' : X = AUFS_WH_PFX ++ X.drop AUFS_WH_PFX_LEN := (drop_eq_iff hX).1 rfl
  refine ⟨?_, ?_⟩
  · rintro ⟨c, hc, hcn⟩
    have hcs := (h.wh_mem _).1 ⟨c, hc, rfl⟩
    rw [(drop_eq_iff hcs.2).1 hcn, ← hX'] at hcs
    exact hcs.1
  · intro hs
    obtain ⟨c, hc, rfl⟩ := (h.wh_mem X).2 ⟨hs, hX⟩
    exact ⟨c, hc, rfl⟩

theorem wh_mem_plain (Y : Bytes) (hY : ¬ WhName Y) (X : Bytes) :
    (∃ c ∈ wh.toList, c.ent.name = X) ↔ X ∈ seen ++ [Y] ∧ WhName X := by
  rw [h.wh_mem X, List.mem_append, List.mem_singleton]
  exact ⟨fun ⟨h1, h2⟩ => ⟨Or.inl h1, h2⟩, fun ⟨h1, h2⟩ => ⟨h1.resolve_right fun he => hY (he ▸ h2), h2⟩⟩

/-- a plain name that a whiteout hides leaves the trees alone -/
theorem minv_hidden (Y : Bytes) (hY : ¬ WhName Y) (hs : AUFS_WH_PFX ++ Y ∈ seen) : MInv (seen ++ [Y]) real wh := by
  refine ⟨h.real_ord, h.wh_ord, fun k hk => List.mem_append_left _ (h.real_sub k hk), ?_, wh_mem_plain h Y hY⟩
  intro X hm hw
  rcases List.mem_append.1 hm with hm | hm
  · exact (h.real_sup X hm hw).imp_right (List.mem_append_left _)
  · rw [List.mem_singleton.1 hm]
    exact Or.inr (List.mem_append_left _ hs)

/-- a plain name enters the tree of real names, or is there -/
theorem minv_real (c : Cell) (t : STree Cell) (hX : ¬ WhName c.ent.name) (hs : AUFS_WH_PFX ++ c.ent.name ∉ seen)
    (hord : Ordered strcmp (fun c : Cell => c.ent.name) t)
    (hmem : ∀ y, y ∈ t.toList ↔ y ∈ real.toList ∨ (y = c ∧ c.ent.name ∉ seen)) :
    MInv (seen ++ [c.ent.name]) t wh := by
  refine ⟨hord, h.wh_ord, ?_, ?_, wh_mem_plain h _ hX⟩
  · intro k hk
    rcases (hmem k).1 hk with hk | ⟨rfl, -⟩
    · exact List.mem_append_left _ (h.real_sub k hk)
    · simp
  · intro X hm hw
    rcases List.mem_append.1 hm with hm | hm
    · rcases h.real_sup X hm hw with ⟨k, hk, hkn⟩ | hw'
      · exact Or.inl ⟨k, (hmem k).2 (Or.inl hk), hkn⟩
      · exact Or.inr (List.mem_append_left _ hw')
    · rw [List.mem_singleton.1 hm]
      left
      by_cases hseen : c.ent.name ∈ seen
      · obtain ⟨k, hk, hkn⟩ := (real_iff h _ hX hs).2 hseen
        exact ⟨k, (hmem k).2 (Or.inl hk), hkn⟩
      · exact ⟨c, (hmem c).2 (Or.inr ⟨rfl, hseen⟩), rfl⟩

/-- a whiteout enters the whiteout tree, or is there -/
theorem minv_wh (c : Cell) (t : STree Cell) (hX : WhName c.ent.name)
    (hord : Ordered strcmp (fun c : Cell => c.ent.name.drop AUFS_WH_PFX_LEN) t)
    (hmem : ∀ y, y ∈ t.toList ↔ y ∈ wh.toList ∨ (y = c ∧ c.ent.name ∉ seen)) :
    MInv (seen ++ [c.ent.name]) real t := by
  refine ⟨h.real_ord, hord, fun k hk => List.mem_append_left _ (h.real_sub k hk), ?_, ?_⟩
  · intro X hm hw
    rcases List.mem_append.1 hm with hm | hm
    · exact (h.real_sup X hm hw).imp_right (List.mem_append_left _)
    · rw [List.mem_singleton.1 hm] at hw
      exact absurd hX hw
  · intro X
    rw [List.mem_append, List.mem_singleton]
    refine ⟨fun ⟨k, hk, hkX⟩ => ?_, fun ⟨hm, hw⟩ => ?_⟩
    · rcases (hmem k).1 hk with hk | ⟨rfl, -⟩
      · have := (h.wh_mem X).1 ⟨k, hk, hkX⟩
        exact ⟨Or.inl this.1, this.2⟩
      · exact ⟨Or.inr hkX.symm, hkX ▸ hX⟩
    · by_cases hseen : X ∈ seen
      · obtain ⟨k, hk, hkX⟩ := (h.wh_mem X).2 ⟨hseen, hw⟩
        exact ⟨k, (hmem k).2 (Or.inl hk), hkX⟩
      · have hXc := hm.resolve_left hseen
        exact ⟨c, (hmem c).2 (Or.inr ⟨rfl, hXc ▸ hseen⟩), hXc.symm⟩

end Step

/-! ## One turn of the loop -/

/-- p' is p after the entry c: the invariant holds with its name, and c is recorded exactly when it is shown -/
structure After (seen : List Bytes) (p : Merge) (c : Cell) (p' : Merge) : Prop where
  inv : MInv (seen ++ [c.ent.name]) p'.real p'.wh
  shwh : p'.shwh = p.shwh
  pos : p'.pos = p.pos ++ if Shown p.shwh seen c.ent.name then [c] else []

theorem append_after (E : MergeEnv) (ul : ℕ) (seen : List Bytes) (p : Merge) (c : Cell) (h : MInv seen p.real p.wh)
    (hd : p.do_store = true) (hpl : plain c.ent = true) (hok : (rdu_ent_append E ul p c).1 = 0) :
    After seen p c (rdu_ent_append E ul p c).2 := by
  have hX : ¬ WhName c.ent.name := (plain_iff c.ent).1 hpl
  have hhid := hidden_iff h c p.do_store hpl
  have hst := tfind_state rdu_ent_compar_wh1 c p.wh p.do_store (fun _ _ => rfl)
  unfold rdu_ent_append at hok ⊢
  split at hok
  · -- hidden by a whiteout: nothing is stored
    rename_i k s hf
    rw [hf] at hhid
    have hs : AUFS_WH_PFX ++ c.ent.name ∈ seen := hhid.1 rfl
    refine ⟨minv_hidden h _ hX hs, rfl, ?_⟩
    rw [if_neg fun hsh => hsh.2.2 hX hs, List.append_nil]
  · rename_i s hf
    rw [hf] at hhid hst
    have hs : AUFS_WH_PFX ++ c.ent.name ∉ seen := fun hm => by simpa using hhid.2 hm
    obtain rfl : s = true := hst.trans hd
    have hspec := tsearch_spec strcmp _ rdu_ent_compar (E.reb ul) (E.reb_toList ul) (E.tsearch_oom ul) c p.real true
      (compar_answers c p.real) h.real_ord
    have hstate := tsearch_state strcmp _ rdu_ent_compar (E.reb ul) (E.tsearch_oom ul) c p.real (fun _ _ => rfl)
      (compar_answers c p.real) h.real_ord
    rw [real_iff h _ hX hs] at hspec hstate
    split at hok
    · rename_i t st ht
      rw [ht] at hspec hstate
      obtain ⟨hord, hmem⟩ := hspec rfl
      have hinv := minv_real h c t hX hs hord hmem
      have hshown : Shown p.shwh seen c.ent.name ↔ st = true := by
        rw [hstate]
        exact ⟨fun hsh => hsh.1, fun hn => ⟨hn, fun hw => absurd hw hX, fun _ => hs⟩⟩
      cases st with
      | true => exact ⟨hinv, rfl, by rw [if_pos (hshown.2 rfl)]; rfl⟩
      | false => exact ⟨hinv, rfl, by rw [if_neg fun hsh => by simpa using hshown.1 hsh, List.append_nil]; rfl⟩
    · cases hok

theorem append_wh_after (E : MergeEnv) (ul : ℕ) (seen : List Bytes) (p : Merge) (c : Cell)
    (h : MInv seen p.real p.wh) (hd : p.do_store = true) (hX : WhName c.ent.name) (hw : c.ent.wh = true)
    (hok : (rdu_ent_append_wh E ul p c).1 = 0) : After seen p c (rdu_ent_append_wh E ul p c).2 := by
  have hc : ({ c with ent := { c.ent with wh := true } } : Cell) = c := by
    obtain ⟨u, e⟩ := c
    simp only at hw
    rw [← hw]
  simp only [rdu_ent_append_wh, hc, hd] at hok ⊢
  have hspec := tsearch_spec strcmp _ rdu_ent_compar_wh2 (E.reb ul) (E.reb_toList ul) (E.tsearch_oom ul) c p.wh true
    (wh2_answers c p.wh) h.wh_ord
  have hstate := tsearch_state strcmp _ rdu_ent_compar_wh2 (E.reb ul) (E.tsearch_oom ul) c p.wh (fun _ _ => rfl)
    (wh2_answers c p.wh) h.wh_ord
  rw [wh_iff h _ hX] at hspec hstate
  split at hok
  · rename_i t st ht
    rw [ht] at hspec hstate
    obtain ⟨hord, hmem⟩ := hspec rfl
    have hinv := minv_wh h c t hX hord hmem
    have hshown : Shown p.shwh seen c.ent.name ↔ (p.shwh && st) = true := by
      rw [Bool.and_eq_true, hstate]
      exact ⟨fun hsh => ⟨hsh.2.1 hX, hsh.1⟩, fun hn => ⟨hn.2, fun _ => hn.1, fun hp => absurd hX hp⟩⟩
    by_cases hb : (p.shwh && st) = true
    · simp only [if_pos hb]
      exact ⟨hinv, rfl, by rw [if_pos (hshown.2 hb)]; rfl⟩
    · simp only [if_neg hb]
      exact ⟨hinv, rfl, by rw [if_neg fun hsh => hb (hshown.1 hsh), List.append_nil]⟩
  · cases hok

theorem merge_one_after (E : MergeEnv) (ul u : ℕ) (e : RduEnt) (seen : List Bytes) (p : Merge)
    (h : MInv seen p.real p.wh) (hok : (merge_one E ul u e p).1 = 0) :
    After seen p ⟨u, e.mark⟩ (merge_one E ul u e p).2 := by
  unfold merge_one at hok ⊢
  by_cases hpl : plain e = true
  · have hmark : e.mark = { e with wh := false } := by simp [RduEnt.mark, hpl]
    simp only [hpl, if_true] at hok ⊢
    have ha := append_after E ul seen { p with do_store := true } ⟨u, { e with wh := false }⟩ h rfl hpl hok
    rw [hmark]
    exact ⟨ha.inv, ha.shwh, ha.pos⟩
  · have hX : WhName e.name := by
      by_contra hn
      exact hpl ((plain_iff e).2 hn)
    have hmark : e.mark = { e with wh := true } := by simp [RduEnt.mark, hpl]
    simp only [hpl, Bool.false_eq_true, if_false] at hok ⊢
    have ha := append_wh_after E ul seen { p with do_store := true } ⟨u, { e with wh := true }⟩ h rfl hX rfl hok
    rw [hmark]
    exact ⟨ha.inv, ha.shwh, ha.pos⟩

theorem merge_one_ok (E : MergeEnv) (ul u : ℕ) (e : RduEnt) (p : Merge) (hoom : E.tsearch_oom ul = false) :
    (merge_one E ul u e p).1 = 0 := by
  unfold merge_one rdu_ent_append rdu_ent_append_wh
  simp only [hoom]
  split_ifs
  · split
    · rfl
    · rename_i s _
      have ht := tsearch_oom rdu_ent_compar (E.reb ul) ⟨u, { e with wh := false }⟩ p.real s
      split
      · rfl
      · rename_i hf
        rw [hf] at ht
        cases ht
  · have ht := tsearch_oom rdu_ent_compar_wh2 (E.reb ul) ⟨u, { e with wh := true }⟩ p.wh true
    split
    · rfl
    · rename_i hf
      rw [hf] at ht
      cases ht

/-! ## The whole loop -/

/-- the entries recorded among es after the names `seen`, in order, with their addresses from u on -/
def recorded (shwh : Bool) : List Bytes → ℕ → List RduEnt → List Cell
  | _, _, [] => []
  | seen, u, e :: es =>
    (if Shown shwh seen e.name then [⟨u, e.mark⟩] else []) ++
      recorded shwh (seen ++ [e.name]) (u + au_rdu_len e.nlen) es

theorem merge_loop_pos (E : MergeEnv) (es : List RduEnt) :
    ∀ (ul u : ℕ) (seen : List Bytes) (p : Merge), MInv seen p.real p.wh → (merge_loop E ul u es p).1 = 0 →
      (merge_loop E ul u es p).2.pos = p.pos ++ recorded p.shwh seen u es := by
  induction es with
  | nil =>
    intro ul u seen p _ _
    simp [merge_loop, recorded]
  | cons e es ih =>
    intro ul u seen p h hok
    simp only [merge_loop] at hok ⊢
    by_cases h0 : (merge_one E ul u e p).1 = 0
    · have ha := merge_one_after E ul u e seen p h h0
      rw [if_pos h0] at hok ⊢
      rw [ih (ul + 1) _ _ _ ha.inv hok, ha.pos, ha.shwh, List.append_assoc]
      rfl
    · rw [if_neg h0] at hok
      exact absurd hok h0

theorem merge_loop_ok (E : MergeEnv) (es : List RduEnt) (hoom : ∀ ul, E.tsearch_oom ul = false) :
    ∀ (ul u : ℕ) (p : Merge), (merge_loop E ul u es p).1 = 0 := by
  induction es with
  | nil => intro ul u p; rfl
  | cons e es ih =>
    intro ul u p
    simp only [merge_loop]
    rw [if_pos (merge_one_ok E ul u e p (hoom ul))]
    exact ih _ _ _

/-- **What rdu_merge records.** If it succeeds, pos[] holds exactly the shown entries of the buffer, in order; and it
succeeds when no allocation fails. -/
theorem rdu_merge_recorded (E : MergeEnv) (shwh : Bool) (ent : ℕ) (es : List RduEnt) :
    ((rdu_merge E shwh ent es).1 = 0 → (rdu_merge E shwh ent es).2 = recorded shwh [] ent es) ∧
      (E.pos_oom = false → (∀ ul, E.tsearch_oom ul = false) → (rdu_merge E shwh ent es).1 = 0) := by
  unfold rdu_merge
  refine ⟨?_, ?_⟩
  · intro h
    by_cases hp : E.pos_oom = true
    · simp [hp] at h
    · by_cases h0 : (merge_loop E 0 ent es ⟨shwh, [], .leaf, .leaf, true⟩).1 = 0
      · simp only [hp, h0, Bool.false_eq_true, if_true, if_false]
        exact merge_loop_pos E es 0 ent [] ⟨shwh, [], .leaf, .leaf, true⟩ minv_init h0
      · simp [hp, h0] at h
  · intro hp hoom
    simp [hp, merge_loop_ok E es hoom]

end AufsUtil.Rdu
