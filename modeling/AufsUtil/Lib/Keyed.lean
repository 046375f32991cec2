/-
Lists used as tables: every element has a key, and a look-up takes the first element with the key.

- `mem_eraseP_key`: erasing a key that occurs once takes out that element only.
- `find?_of_mem`: a key that occurs once is looked up at its element.
- `find?_set_self`, `find?_set_ne`, `findIdx?_set_new`, `find?_concat_ne`: overwriting the place of a key, or adding
  one, changes the look-up of that key and no other one.
-/
import Mathlib.Tactic

namespace AufsUtil.Keyed

variable {α β : Type} [DecidableEq β] {l : List α} {key : α → β}

/-- erasing by a key that occurs once leaves the elements with another key -/
theorem mem_eraseP_key (hnd : (l.map key).Nodup) {x : β} {a : α} :
    a ∈ l.eraseP (fun y => key y = x) ↔ a ∈ l ∧ key a ≠ x := by
  induction l with
  | nil => simp
  | cons b l ih =>
    rw [List.map_cons, List.nodup_cons] at hnd
    by_cases hb : key b = x
    · rw [List.eraseP_cons_of_pos (by simpa using hb)]
      refine ⟨fun h => ⟨List.mem_cons_of_mem b h, fun hax => hnd.1 ?_⟩, ?_⟩
      · rw [hb, ← hax]
        exact List.mem_map_of_mem h
      · rintro ⟨h, hax⟩
        rcases List.mem_cons.1 h with rfl | h
        · exact absurd hb hax
        · exact h
    · rw [List.eraseP_cons_of_neg (by simpa using hb), List.mem_cons, ih hnd.2, List.mem_cons]
      refine ⟨?_, ?_⟩
      · intro h
        rcases h with rfl | ⟨h, hax⟩
        · exact ⟨Or.inl rfl, hb⟩
        · exact ⟨Or.inr h, hax⟩
      · rintro ⟨h, hax⟩
        rcases h with rfl | h
        · exact Or.inl rfl
        · exact Or.inr ⟨h, hax⟩

/-- a key that occurs once is looked up at its element -/
theorem find?_of_mem (hnd : (l.map key).Nodup) {a : α} (ha : a ∈ l) : l.find? (fun y => key y = key a) = some a := by
  obtain ⟨b, hb⟩ := Option.isSome_iff_exists.1
    (List.find?_isSome.2 ⟨a, ha, by simp⟩ : (l.find? (fun y => decide (key y = key a))).isSome)
  have hkey : key b = key a := by simpa using List.find?_some hb
  rw [hb, List.inj_on_of_nodup_map hnd (List.mem_of_find?_eq_some hb) ha hkey]

/-- the first element with a key, overwritten by one with this key, is found -/
theorem find?_set_self {x : β} {i : ℕ} (hi : l.findIdx? (fun y => key y = x) = some i) {b : α} (hb : key b = x) :
    (l.set i b).find? (fun y => key y = x) = some b := by
  induction l generalizing i with
  | nil => simp at hi
  | cons c l ih =>
    rw [List.findIdx?_cons] at hi
    by_cases hc : key c = x
    · rw [if_pos (by simpa using hc), Option.some.injEq] at hi
      subst hi
      rw [List.set_cons_zero, List.find?_cons_of_pos (by simpa using hb)]
    · rw [if_neg (by simpa using hc), Option.map_eq_some_iff] at hi
      obtain ⟨j, hj, rfl⟩ := hi
      rw [List.set_cons_succ, List.find?_cons_of_neg (by simpa using hc)]
      exact ih hj

/-- other keys are found where they were -/
theorem find?_set_ne {x : β} {i : ℕ} {a b : α} (ha : l[i]? = some a) (hax : key a ≠ x) (hbx : key b ≠ x) :
    (l.set i b).find? (fun y => key y = x) = l.find? (fun y => key y = x) := by
  induction l generalizing i with
  | nil => rfl
  | cons c l ih =>
    cases i with
    | zero =>
      rw [List.getElem?_cons_zero, Option.some.injEq] at ha
      subst ha
      rw [List.set_cons_zero, List.find?_cons_of_neg (by simpa using hbx), List.find?_cons_of_neg (by simpa using hax)]
    | succ i =>
      rw [List.getElem?_cons_succ] at ha
      rw [List.set_cons_succ, List.find?_cons, List.find?_cons, ih ha]

/-- a key that was not there is found where it is written -/
theorem findIdx?_set_new {x : β} (hnone : l.find? (fun y => key y = x) = none) {i : ℕ} (hi : i < l.length) {b : α}
    (hb : key b = x) : (l.set i b).findIdx? (fun y => key y = x) = some i := by
  rw [List.findIdx?_eq_some_iff_getElem]
  refine ⟨by simpa using hi, by simpa using hb, fun j hj => ?_⟩
  rw [List.getElem_set_ne hj.ne']
  simpa using List.find?_eq_none.1 hnone l[j] (List.getElem_mem _)

theorem find?_concat_ne {x : β} {b : α} (hbx : key b ≠ x) :
    (l ++ [b]).find? (fun y => key y = x) = l.find? (fun y => key y = x) := by
  rw [List.find?_append, List.find?_cons_of_neg (by simpa using hbx), List.find?_nil, Option.or_none]

end AufsUtil.Keyed
