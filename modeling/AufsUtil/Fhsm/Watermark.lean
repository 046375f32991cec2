/-
What a watermark argument names (do_wmark and wmark of `fhsm/aufhsm.c`, the searches of `br.c` and `fhsm/comm.h`).

`BranchPath=UPPER-LOWER` goes from the text to a record in three steps: the text is split at its last `=`, the path is
searched for in a copy of the branches that main has sorted by path, and the id of the branch is searched for in the
table, which is sorted by id. `UPPER-LOWER` is for every record.

- `search_sorted`: in the sorted copy the search finds the branch with the path, if no two branches have one path.
- `wmark_branch`, `wmark_all`: the two kinds of arguments.
- `wmark_names`: an argument changes one pair, of the record it names or of every record, and no argument changes an id.
-/
import Mathlib.Tactic
import AufsUtil.Fhsm.Control

namespace AufsUtil.Fhsm

open AufsUtil.CStr AufsUtil.SortSearch

section Watermark

variable {F : Type} (fl : Floats F) (qp : Qsort strcmp Brinfo.path) (bp : Bsearch strcmp Brinfo.path) (inode : Bool)

/-- **The search by path finds the branch**, whatever the order of the branches was. -/
theorem search_sorted {brinfo : List Brinfo} (hpaths : (brinfo.map Brinfo.path).Nodup) {b : Brinfo} (hb : b ∈ brinfo) :
    au_br_search_path bp b.path (au_br_sort_path qp brinfo) = some b := by
  have hmem : b ∈ qp.sort brinfo := (qp.perm brinfo).mem_iff.2 hb
  have hsome := bp.complete b.path (qp.sort brinfo) (qp.sorted brinfo) ⟨b, hmem, Std.ReflCmp.compare_self⟩
  obtain ⟨i, hi⟩ := Option.isSome_iff_exists.1 hsome
  obtain ⟨a, ha, heq⟩ := bp.sound b.path (qp.sort brinfo) i hi
  have hab : a = b := by
    refine List.inj_on_of_nodup_map hpaths ((qp.perm brinfo).mem_iff.1 (List.mem_of_getElem? ha)) hb ?_
    exact (Std.LawfulEqCmp.eq_of_compare heq).symm
  rw [au_br_search_path, au_br_sort_path, hi, Option.bind_some, ha, hab]

/-- in a list without duplicates an element is found where it is -/
theorem findIdx_nodup {α : Type} [DecidableEq α] {l : List α} (hl : l.Nodup) {k : ℕ} {x a : α} (hx : l[k]? = some x) :
    l.findIdx? (· = a) = some k ↔ x = a := by
  obtain ⟨hk, rfl⟩ := List.getElem?_eq_some_iff.1 hx
  rw [List.findIdx?_eq_some_iff_getElem]
  constructor
  · intro ⟨_, ha, _⟩
    simpa using ha
  · intro ha
    refine ⟨hk, by simpa using ha, fun j hj h => ?_⟩
    have hjk := (List.Nodup.getElem_inj_iff hl).1 ((of_decide_eq_true h).trans ha.symm)
    omega

/-- an argument that is not rejected, by what it makes of each record -/
theorem wmark_map {brinfo : List Brinfo} {str : Bytes} {t : Aufhsm F} (f : Wmark F → Wmark F)
    (hrejects : rejects fl bp brinfo t.brids str = false)
    (hf : ∀ k w, t.wmark[k]? = some w → w.put inode (written fl bp brinfo t.brids str k) = f w) :
    wmark fl bp inode str t brinfo = some { t with wmark := t.wmark.map f } := by
  rcases wmark_cases fl bp inode brinfo str t with ⟨hr, -⟩ | ⟨-, ws, hws, hget⟩
  · rw [hrejects] at hr
    cases hr
  · rw [hws]
    refine congrArg some (congrArg (Aufhsm.mk t.magic t.csum) (List.ext_getElem? fun k => ?_))
    rw [hget, List.getElem?_map]
    cases hk : t.wmark[k]? with
    | none => rfl
    | some w => rw [Option.map_some, Option.map_some, hf k w hk]

/-- the pair of one branch: only the record with its id -/
theorem wmark_branch {brinfo : List Brinfo} (hpaths : (brinfo.map Brinfo.path).Nodup) {t : Aufhsm F}
    (hids : t.brids.Nodup) {b : Brinfo} (hb : b ∈ brinfo) {txt : Bytes} (htxt : (61 : UInt8) ∉ txt) {a : F × F}
    (ha : wmark_pair fl txt = some a) :
    wmark fl bp inode (b.path ++ 61 :: txt) t (au_br_sort_path qp brinfo) =
      some { t with wmark := t.wmark.map fun w => if w.brid = b.id then w.setPair inode a else w } := by
  have hsplit := strrchr_append b.path htxt
  have hpath : (b.path ++ 61 :: txt).take b.path.length = b.path := List.take_left
  have hrest : (b.path ++ 61 :: txt).drop (b.path.length + 1) = txt := by
    rw [List.append_cons, List.drop_left']
    simp
  have hsearch := search_sorted qp bp hpaths hb
  refine wmark_map fl bp inode _ (by simp [rejects, hsplit, hpath, hsearch, hrest, ha]) fun k w hk => ?_
  have hbrid : t.brids[k]? = some w.brid := by rw [Aufhsm.brids, List.getElem?_map, hk, Option.map_some]
  simp only [written, hsplit, hpath, hsearch, hrest, ha, findIdx_nodup hids hbrid]
  split_ifs <;> rfl

/-- the pair for all: every record -/
theorem wmark_all (brinfo : List Brinfo) (t : Aufhsm F) {txt : Bytes} (htxt : (61 : UInt8) ∉ txt) {a : F × F}
    (ha : wmark_pair fl txt = some a) :
    wmark fl bp inode txt t brinfo = some { t with wmark := t.wmark.map fun w => w.setPair inode a } := by
  have hsplit := strrchr_none htxt
  refine wmark_map fl bp inode _ (by simp [rejects, hsplit, ha]) fun k w _ => ?_
  simp only [written, hsplit, ha]
  rfl

theorem wmark_brids {brinfo : List Brinfo} {t u : Aufhsm F} {str : Bytes}
    (h : wmark fl bp inode str t brinfo = some u) : u.brids = t.brids := by
  rcases wmark_cases fl bp inode brinfo str t with ⟨-, hnone⟩ | ⟨-, ws, hws, hget⟩
  · rw [hnone] at h
    cases h
  · rw [hws, Option.some.injEq] at h
    subst h
    exact brids_of_put inode _ hget

/-- **An argument changes what it names.** For all branches with distinct paths, sorted by path, and every table with
distinct ids: `P=U-L`, P being the path of an FHSM branch, sets one pair of the record with its id, `U-L` sets one pair
of every record, and nothing else of the table changes; no argument at all changes an id. -/
theorem wmark_names (brinfo : List Brinfo) (hpaths : (brinfo.map Brinfo.path).Nodup) (t : Aufhsm F)
    (hids : t.brids.Nodup) :
    (∀ b ∈ brinfo, b.fhsm = true → ∀ txt a, (61 : UInt8) ∉ txt → wmark_pair fl txt = some a →
      wmark fl bp false (b.path ++ 61 :: txt) t (au_br_sort_path qp brinfo) =
          some { t with wmark := t.wmark.map fun w => if w.brid = b.id then { w with block := a } else w } ∧
        wmark fl bp true (b.path ++ 61 :: txt) t (au_br_sort_path qp brinfo) =
          some { t with wmark := t.wmark.map fun w => if w.brid = b.id then { w with inode := a } else w }) ∧
      (∀ txt a, (61 : UInt8) ∉ txt → wmark_pair fl txt = some a →
        wmark fl bp false txt t (au_br_sort_path qp brinfo) =
            some { t with wmark := t.wmark.map fun w => { w with block := a } } ∧
          wmark fl bp true txt t (au_br_sort_path qp brinfo) =
            some { t with wmark := t.wmark.map fun w => { w with inode := a } }) ∧
      ∀ inode str u, wmark fl bp inode str t (au_br_sort_path qp brinfo) = some u → u.brids = t.brids := by
  refine ⟨?_, ?_, ?_⟩
  · intro b hb _ txt a htxt ha
    exact ⟨wmark_branch fl qp bp false hpaths hids hb htxt ha, wmark_branch fl qp bp true hpaths hids hb htxt ha⟩
  · intro txt a htxt ha
    exact ⟨wmark_all fl bp false _ t htxt ha, wmark_all fl bp true _ t htxt ha⟩
  · intro inode str u h
    exact wmark_brids fl bp inode h

end Watermark

/-- the two branches and the table of their first run -/
theorem wmark_names_two : (twoFhsm.map Brinfo.path).Nodup ∧ twoTable.brids.Nodup ∧
    (∀ b ∈ twoFhsm, b.fhsm = true → ∀ txt a, (61 : UInt8) ∉ txt → wmark_pair ratFloats txt = some a →
      wmark ratFloats pathSearch false (b.path ++ 61 :: txt) twoTable (au_br_sort_path pathSort twoFhsm) =
          some { twoTable with
            wmark := twoTable.wmark.map fun w => if w.brid = b.id then { w with block := a } else w } ∧
        wmark ratFloats pathSearch true (b.path ++ 61 :: txt) twoTable (au_br_sort_path pathSort twoFhsm) =
          some { twoTable with
            wmark := twoTable.wmark.map fun w => if w.brid = b.id then { w with inode := a } else w }) :=
  have hpaths : (twoFhsm.map Brinfo.path).Nodup := by decide
  have hids : twoTable.brids.Nodup := by decide +kernel
  ⟨hpaths, hids, (wmark_names ratFloats pathSort pathSearch twoFhsm hpaths twoTable hids).1⟩

end AufsUtil.Fhsm
