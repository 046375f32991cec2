/-
The rewriting of the mount table (update_mtab and append_mtab of `mtab.c`).

A remount goes over MTab twice: the first pass keeps the file position behind the last entry for the mount point, the
second one copies the entries and puts the new one where it comes to that position; `pos` is then -1, which also marks
that nothing was found.

What the model keeps of C:
- MTab is what getmntent(3) makes of it: entries, each with the position that ftell(3) reports behind it (`Stream`);
  reading an entry moves the position up;
- addmntent(3) may fail, which is AuFin, and so is a position that the second pass does not come to (`none`).

- `first_pass_last`, `replace_loop_at`: what the first pass keeps, and what the second makes of it.
- `update_mtab_one_line`: exactly which table is written.
- `update_mtab_apply`: it is `Update.apply`, which the runs of `Mtab/Machine.lean` are proved to serialise.
-/
import Mathlib.Tactic
import AufsUtil.Mtab.Machine

namespace AufsUtil.Mtab

open AufsUtil.CStr

/-! ## The functions -/

/-- the entries of MTab with the positions behind them -/
structure Stream where
  entries : List (Mntent × ℕ)
  increasing : (0 :: entries.map Prod.snd).Pairwise (· < ·)

def Stream.table (s : Stream) : Table := s.entries.map Prod.fst

/-- `ok n` says whether the call that writes the entry behind n others succeeds -/
def addmntent (ok : ℕ → Bool) (fp : Table) (p : Mntent) : Option Table :=
  if ok fp.length then some (fp ++ [p]) else none

/-- the first pass: the position behind the last entry for the mount point -/
def first_pass (mntpnt : Bytes) : List (Mntent × ℕ) → ℤ → ℤ
  | [], pos => pos
  | (p, off) :: s, pos => first_pass mntpnt s (if p.dir = mntpnt then off else pos)

/-- the second pass: pos and the new file behind it -/
def replace_loop (ok : ℕ → Bool) (ent : Mntent) : List (Mntent × ℕ) → ℤ → Table → Option (ℤ × Table)
  | [], pos, fp => some (pos, fp)
  | (p, off) :: s, pos, fp =>
    if (off : ℤ) = pos then (addmntent ok fp ent).bind (replace_loop ok ent s (-1))
    else (addmntent ok fp p).bind (replace_loop ok ent s pos)

/-- the loop of append_mtab -/
def copy_entries (ok : ℕ → Bool) : Table → List Mntent → Option Table
  | fp, [] => some fp
  | fp, p :: s => (addmntent ok fp p).bind (copy_entries ok · s)

def append_mtab (ok : ℕ → Bool) (fp : Table) (ofp : Table) (ent : Mntent) : Option Table :=
  (copy_entries ok fp ofp).bind (addmntent ok · ent)

/-- ent is what au_proc_getmntent found; the new file -/
def update_mtab (ok : ℕ → Bool) (ofp : Stream) (mntpnt : Bytes) (do_remount : Bool) (ent : Mntent) : Option Table :=
  if do_remount then
    let pos := first_pass mntpnt ofp.entries (-1)
    if 0 < pos then
      (replace_loop ok ent ofp.entries pos []).bind fun r => if 0 < r.1 then none else some r.2
    else append_mtab ok [] ofp.table ent
  else append_mtab ok [] ofp.table ent

/-! ## Copying -/

/-- what is copied stands behind what was there -/
theorem copy_entries_iff (ok : ℕ → Bool) (fp : Table) (s : List Mntent) (out : Table) :
    copy_entries ok fp s = some out ↔ out = fp ++ s ∧ ∀ k, fp.length ≤ k → k < out.length → ok k = true := by
  induction s generalizing fp with
  | nil =>
    rw [copy_entries, Option.some.injEq, List.append_nil]
    constructor
    · intro h
      subst h
      exact ⟨rfl, fun k h1 h2 => by omega⟩
    · intro ⟨h, _⟩
      exact h.symm
  | cons p s ih =>
    rw [copy_entries, addmntent]
    split_ifs with hok
    · have hsplit : fp ++ [p] ++ s = fp ++ p :: s := (List.append_cons fp p s).symm
      rw [Option.bind_some, ih, hsplit]
      refine and_congr_right fun hout => Iff.intro ?_ ?_
      · intro h k h1 h2
        rcases h1.eq_or_lt with rfl | h1
        · exact hok
        · exact h k (by simpa using h1) h2
      · intro h k h1 h2
        rw [List.length_append] at h1
        exact h k (by omega) h2
    · rw [Option.bind_none]
      constructor
      · intro h
        cases h
      · intro ⟨hout, h⟩
        exact absurd (h fp.length le_rfl (by rw [hout]; simp)) hok

theorem copy_entries_append (ok : ℕ → Bool) (fp : Table) (s t : List Mntent) :
    copy_entries ok fp (s ++ t) = (copy_entries ok fp s).bind (copy_entries ok · t) := by
  induction s generalizing fp with
  | nil => rfl
  | cons p s ih =>
    rw [List.cons_append, copy_entries, copy_entries, Option.bind_assoc]
    exact Option.bind_congr fun fp _ => ih fp

theorem append_mtab_eq (ok : ℕ → Bool) (fp ofp : Table) (ent : Mntent) :
    append_mtab ok fp ofp ent = copy_entries ok fp (ofp ++ [ent]) := by
  rw [copy_entries_append, append_mtab]
  refine Option.bind_congr fun fp _ => ?_
  rw [copy_entries]
  cases addmntent ok fp ent <;> rfl

/-! ## The two passes -/

theorem first_pass_none {mntpnt : Bytes} {s : List (Mntent × ℕ)} (h : ∀ x ∈ s, x.1.dir ≠ mntpnt) (pos : ℤ) :
    first_pass mntpnt s pos = pos := by
  induction s generalizing pos with
  | nil => rfl
  | cons x s ih =>
    rw [first_pass, if_neg (h x List.mem_cons_self)]
    exact ih (fun y hy => h y (List.mem_cons_of_mem x hy)) pos

/-- the last entry for the mount point decides -/
theorem first_pass_last {mntpnt : Bytes} {s t : List (Mntent × ℕ)} {p : Mntent} {off : ℕ} (hp : p.dir = mntpnt)
    (h : ∀ x ∈ t, x.1.dir ≠ mntpnt) (pos : ℤ) : first_pass mntpnt (s ++ (p, off) :: t) pos = off := by
  induction s generalizing pos with
  | nil =>
    rw [List.nil_append, first_pass, if_pos hp]
    exact first_pass_none h off
  | cons x s ih => exact ih _

/-- no entry stands at pos -/
theorem replace_loop_keep (ok : ℕ → Bool) (ent : Mntent) {s : List (Mntent × ℕ)} {pos : ℤ}
    (h : ∀ x ∈ s, (x.2 : ℤ) ≠ pos) (t : List (Mntent × ℕ)) (fp : Table) :
    replace_loop ok ent (s ++ t) pos fp = (copy_entries ok fp (s.map Prod.fst)).bind (replace_loop ok ent t pos) := by
  induction s generalizing fp with
  | nil => rfl
  | cons x s ih =>
    rw [List.cons_append, replace_loop, if_neg (h x List.mem_cons_self), List.map_cons, copy_entries, Option.bind_assoc]
    exact Option.bind_congr fun fp _ => ih (fun y hy => h y (List.mem_cons_of_mem x hy)) fp

/-- the entry at pos is replaced, and no other one -/
theorem replace_loop_at (ok : ℕ → Bool) (ent p : Mntent) {s t : List (Mntent × ℕ)} {off : ℕ}
    (hs : ∀ x ∈ s, x.2 < off) (fp : Table) :
    replace_loop ok ent (s ++ (p, off) :: t) off fp =
      (copy_entries ok fp (s.map Prod.fst ++ ent :: t.map Prod.fst)).map fun fp => (-1, fp) := by
  have hbefore : ∀ x ∈ s, (x.2 : ℤ) ≠ off := by
    intro x hx heq
    have := hs x hx
    omega
  have hbehind : ∀ x ∈ t, (x.2 : ℤ) ≠ -1 := by
    intro x _ heq
    omega
  rw [replace_loop_keep ok ent hbefore, copy_entries_append, Option.map_bind]
  refine Option.bind_congr fun fp _ => ?_
  have hrest := fun fp => replace_loop_keep ok ent hbehind [] fp
  simp only [List.append_nil] at hrest
  rw [replace_loop, if_pos rfl, Function.comp_apply, copy_entries, Option.map_bind]
  refine Option.bind_congr fun fp _ => ?_
  rw [hrest, Function.comp_apply]
  cases copy_entries ok fp (t.map Prod.fst) <;> rfl

/-- the stream, split at an entry -/
theorem stream_split {ofp : Stream} {pre post : Table} {p : Mntent} (h : ofp.table = pre ++ p :: post) :
    ∃ s off t, ofp.entries = s ++ (p, off) :: t ∧ s.map Prod.fst = pre ∧ t.map Prod.fst = post ∧ 0 < off ∧
      ∀ x ∈ s, x.2 < off := by
  obtain ⟨s, u, hentries, hs, hu⟩ := List.map_eq_append_iff.1 h
  obtain ⟨⟨q, off⟩, t, hut, rfl, ht⟩ := List.map_eq_cons_iff.1 hu
  subst hut
  have hincr := ofp.increasing
  rw [hentries, List.map_append, List.map_cons, List.pairwise_cons] at hincr
  refine ⟨s, off, t, hentries, hs, ht, hincr.1 off (by simp), fun x hx => ?_⟩
  exact (List.pairwise_append.1 hincr.2).2.2 x.2 (List.mem_map_of_mem hx) off List.mem_cons_self

/-- a remount with an entry for the mount point -/
theorem update_replace (ok : ℕ → Bool) {ofp : Stream} {mntpnt : Bytes} (ent : Mntent) {pre post : Table} {p : Mntent}
    (h : ofp.table = pre ++ p :: post) (hp : p.dir = mntpnt) (hpost : ∀ q ∈ post, q.dir ≠ mntpnt) :
    update_mtab ok ofp mntpnt true ent = copy_entries ok [] (pre ++ ent :: post) := by
  obtain ⟨s, off, t, hentries, rfl, rfl, hoff, hs⟩ := stream_split h
  have hbehind : ∀ x ∈ t, x.1.dir ≠ mntpnt := fun x hx => hpost x.1 (List.mem_map_of_mem hx)
  have hpos : first_pass mntpnt ofp.entries (-1) = off := by rw [hentries, first_pass_last hp hbehind]
  calc update_mtab ok ofp mntpnt true ent
      = (replace_loop ok ent ofp.entries off []).bind fun r => if 0 < r.1 then none else some r.2 := by
        rw [update_mtab, if_pos rfl, hpos]
        exact if_pos (by omega)
    _ = ((copy_entries ok [] (s.map Prod.fst ++ ent :: t.map Prod.fst)).map fun fp => (-1, fp)).bind
          fun r => if 0 < r.1 then none else some r.2 := by rw [hentries, replace_loop_at ok ent p hs]
    _ = copy_entries ok [] (s.map Prod.fst ++ ent :: t.map Prod.fst) := by
        cases copy_entries ok [] (s.map Prod.fst ++ ent :: t.map Prod.fst) <;> rfl

/-- a remount without one -/
theorem update_append (ok : ℕ → Bool) {ofp : Stream} {mntpnt : Bytes} (ent : Mntent)
    (h : ∀ q ∈ ofp.table, q.dir ≠ mntpnt) :
    update_mtab ok ofp mntpnt true ent = copy_entries ok [] (ofp.table ++ [ent]) := by
  have hnone : first_pass mntpnt ofp.entries (-1) = -1 :=
    first_pass_none (fun x hx => h x.1 (List.mem_map_of_mem hx)) (-1)
  rw [update_mtab, if_pos rfl, hnone, ← append_mtab_eq]
  exact if_neg (by decide)

/-- **An update changes one line.** For every table, mount point and entry: a remount replaces the last entry for the
mount point, or appends the entry if there is none; any other update appends it; all else stays as it is, in order. It
fails exactly if one of the entries cannot be written. -/
theorem update_mtab_one_line (ok : ℕ → Bool) (ofp : Stream) (mntpnt : Bytes) (ent : Mntent) (out : Table) :
    (∀ pre p post, ofp.table = pre ++ p :: post → p.dir = mntpnt → (∀ q ∈ post, q.dir ≠ mntpnt) →
      (update_mtab ok ofp mntpnt true ent = some out ↔ out = pre ++ ent :: post ∧ ∀ k < out.length, ok k = true)) ∧
      ((∀ q ∈ ofp.table, q.dir ≠ mntpnt) →
        (update_mtab ok ofp mntpnt true ent = some out ↔ out = ofp.table ++ [ent] ∧ ∀ k < out.length, ok k = true)) ∧
      (update_mtab ok ofp mntpnt false ent = some out ↔
        out = ofp.table ++ [ent] ∧ ∀ k < out.length, ok k = true) := by
  have hcopy : ∀ s, copy_entries ok [] s = some out ↔ out = s ∧ ∀ k < out.length, ok k = true := by
    intro s
    rw [copy_entries_iff, List.nil_append]
    simp
  refine ⟨?_, ?_, ?_⟩
  · intro pre p post h hp hpost
    rw [update_replace ok ent h hp hpost, hcopy]
  · intro h
    rw [update_append ok ent h, hcopy]
  · rw [update_mtab, if_neg Bool.false_ne_true, append_mtab_eq, hcopy]

/-- an entry of an aufs -/
def aufs_ent (dir opts : Bytes) : Mntent := ⟨[110], dir, [97, 117, 102, 115], opts, 0, 0⟩

/-- MTab with two entries for "/m", and one for "/n" behind each of them -/
def twice : Stream :=
  ⟨[(aufs_ent [47, 109] [114, 119], 10), (aufs_ent [47, 110] [114, 119], 20), (aufs_ent [47, 109] [114, 119], 30),
    (aufs_ent [47, 110] [114, 111], 40)], by decide⟩

/-- a remount of "/m" replaces the second one -/
theorem update_mtab_one_line_twice :
    update_mtab (fun _ => true) twice [47, 109] true (aufs_ent [47, 109] [114, 111]) =
      some [aufs_ent [47, 109] [114, 119], aufs_ent [47, 110] [114, 119], aufs_ent [47, 109] [114, 111],
        aufs_ent [47, 110] [114, 111]] :=
  ((update_mtab_one_line (fun _ => true) twice [47, 109] (aufs_ent [47, 109] [114, 111]) _).1
    [aufs_ent [47, 109] [114, 119], aufs_ent [47, 110] [114, 119]] _ [aufs_ent [47, 110] [114, 111]] rfl rfl
    (by decide)).2 ⟨rfl, fun _ _ => rfl⟩

/-! ## The updates of the runs -/

theorem last_index_none {mntpnt : Bytes} {T : Table} (h : last_index mntpnt T = none) : ∀ q ∈ T, q.dir ≠ mntpnt := by
  induction T with
  | nil => exact fun q hq => absurd hq List.not_mem_nil
  | cons p T ih =>
    rw [last_index] at h
    cases hr : last_index mntpnt T with
    | some k =>
      rw [hr] at h
      cases h
    | none =>
      rw [hr] at h
      split_ifs at h with hp
      exact List.forall_mem_cons.2 ⟨hp, ih hr⟩

theorem last_index_some {mntpnt : Bytes} {T : Table} {k : ℕ} (h : last_index mntpnt T = some k) :
    ∃ pre p post, T = pre ++ p :: post ∧ pre.length = k ∧ p.dir = mntpnt ∧ ∀ q ∈ post, q.dir ≠ mntpnt := by
  induction T generalizing k with
  | nil => cases h
  | cons p T ih =>
    rw [last_index] at h
    cases hr : last_index mntpnt T with
    | some j =>
      rw [hr] at h
      obtain ⟨pre, q, post, hT, hlen, hq, hpost⟩ := ih hr
      exact ⟨p :: pre, q, post, by rw [hT]; rfl, by rw [List.length_cons, hlen]; exact Option.some.inj h, hq, hpost⟩
    | none =>
      rw [hr] at h
      split_ifs at h with hp
      exact ⟨[], p, T, rfl, Option.some.inj h, hp, last_index_none hr⟩

/-- **The file that is written is the table of the update.** -/
theorem update_mtab_apply (u : Update) (ofp : Stream) :
    update_mtab (fun _ => true) ofp u.job.mntpnt u.job.do_remount u.ent = some (u.apply ofp.table) := by
  have hcopy : ∀ s, copy_entries (fun _ => true) [] s = some s := fun s =>
    (copy_entries_iff _ [] s s).2 ⟨rfl, fun _ _ _ => rfl⟩
  unfold Update.apply
  cases hr : u.job.do_remount with
  | false => rw [update_mtab, if_neg Bool.false_ne_true, append_mtab_eq, hcopy, if_neg Bool.false_ne_true]
  | true =>
    rw [if_pos rfl]
    cases hl : last_index u.job.mntpnt ofp.table with
    | none => rw [update_append _ _ (last_index_none hl), hcopy]
    | some k =>
      obtain ⟨pre, p, post, hT, rfl, hp, hpost⟩ := last_index_some hl
      rw [update_replace _ _ hT hp hpost, hcopy, hT]
      simp only
      rw [List.set_append_right _ _ le_rfl, Nat.sub_self, List.set_cons_zero]

end AufsUtil.Mtab
