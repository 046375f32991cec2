/-
Bytes in memory.

A memory is a function from addresses to bytes. `write` puts a list of bytes at an address, `memmove` copies n bytes,
read before they are written, so the two areas may overlap; `realloc` is memory in which a block has moved. `At m a b`
says that the bytes b stand at address a.

- `at_write`, `at_memmove`: what was written, or copied, stands there.
- `At.write`, `At.memmove`, `At.writes`: bytes outside of the area written to stay (the frame of a write).
- `At.realloc`: bytes of a block stand in the moved block at the same distance from its start.
-/
import Mathlib.Tactic
import AufsUtil.Lib.CStr

namespace AufsUtil.Memory

open AufsUtil.CStr

abbrev Mem := ℕ → UInt8

def read (m : Mem) (a n : ℕ) : Bytes := (List.range n).map fun i => m (a + i)

def write (m : Mem) (a : ℕ) (b : Bytes) : Mem := fun x => if a ≤ x then b.getD (x - a) (m x) else m x

/-- stores one after the other, each with its address -/
def writes (m : Mem) (l : List (ℕ × Bytes)) : Mem := l.foldl (fun m s => write m s.1 s.2) m

def memmove (m : Mem) (dst src n : ℕ) : Mem := write m dst (read m src n)

/-- a block of n bytes at a has moved to b; `junk` is the memory elsewhere -/
def realloc (m junk : Mem) (a n b : ℕ) : Mem := write junk b (read m a n)

/-- the bytes b stand at a -/
def At (m : Mem) (a : ℕ) (b : Bytes) : Prop := ∀ i < b.length, b[i]? = some (m (a + i))

instance (m : Mem) (a : ℕ) (b : Bytes) : Decidable (At m a b) :=
  inferInstanceAs (Decidable (∀ i < b.length, b[i]? = some (m (a + i))))

@[simp] theorem length_read (m : Mem) (a n : ℕ) : (read m a n).length = n := by simp [read]

theorem getElem?_read (m : Mem) (a : ℕ) {n i : ℕ} (h : i < n) : (read m a n)[i]? = some (m (a + i)) := by
  simp [read, h]

/-- inside of the area that was written -/
theorem write_inside (m : Mem) (a : ℕ) (b : Bytes) {i : ℕ} (h : i < b.length) : b[i]? = some (write m a b (a + i)) := by
  rw [write, if_pos (Nat.le_add_right a i), Nat.add_sub_cancel_left, List.getD_eq_getElem?_getD,
    List.getElem?_eq_getElem h, Option.getD_some]

/-- outside of it -/
theorem write_outside (m : Mem) (a : ℕ) (b : Bytes) {x : ℕ} (h : x < a ∨ a + b.length ≤ x) : write m a b x = m x := by
  unfold write
  by_cases hx : a ≤ x
  · rw [if_pos hx, List.getD_eq_getElem?_getD, List.getElem?_eq_none (by omega), Option.getD_none]
  · rw [if_neg hx]

theorem at_write (m : Mem) (a : ℕ) (b : Bytes) : At (write m a b) a b := fun _ hi => write_inside m a b hi

theorem At.write {m : Mem} {x : ℕ} {c : Bytes} (h : At m x c) {a : ℕ} {b : Bytes}
    (hd : x + c.length ≤ a ∨ a + b.length ≤ x) : At (write m a b) x c := by
  intro i hi
  rw [h i hi, write_outside m a b (by omega)]

@[simp] theorem writes_nil (m : Mem) : writes m [] = m := rfl

@[simp] theorem writes_cons (m : Mem) (s : ℕ × Bytes) (l : List (ℕ × Bytes)) :
    writes m (s :: l) = writes (write m s.1 s.2) l := rfl

@[simp] theorem writes_append (m : Mem) (l k : List (ℕ × Bytes)) : writes m (l ++ k) = writes (writes m l) k :=
  List.foldl_append

/-- stores that all lie behind a block leave it -/
theorem At.writes {m : Mem} {x : ℕ} {c : Bytes} (h : At m x c) {l : List (ℕ × Bytes)}
    (hl : ∀ s ∈ l, x + c.length ≤ s.1) : At (Memory.writes m l) x c := by
  induction l generalizing m with
  | nil => exact h
  | cons s l ih =>
    rw [writes_cons]
    exact ih (h.write (Or.inl (hl s List.mem_cons_self))) fun t ht => hl t (List.mem_cons_of_mem s ht)

theorem At.take {m : Mem} {a : ℕ} {b : Bytes} (h : At m a b) (n : ℕ) : At m a (b.take n) := by
  intro i hi
  rw [List.length_take] at hi
  rw [List.getElem?_take_of_lt (by omega)]
  exact h i (by omega)

/-- a text with its NUL at a is the string that is read from there -/
theorem cstr_read {m : Mem} {a n : ℕ} {s : Bytes} (h : At m a (s ++ [0])) (h0 : (0 : UInt8) ∉ s) (hn : s.length < n) :
    cstr (read m a n) 0 = s := by
  have hread : read m a n = s ++ 0 :: read m (a + s.length + 1) (n - s.length - 1) := by
    refine List.ext_getElem? fun i => ?_
    rcases Nat.lt_trichotomy i s.length with hi | rfl | hi
    · rw [getElem?_read m a (by omega), List.getElem?_append_left hi, ← h i (by simp; omega),
        List.getElem?_append_left hi]
    · rw [getElem?_read m a hn, List.getElem?_append_right le_rfl, ← h s.length (by simp)]
      simp
    · rw [List.getElem?_append_right (by omega)]
      obtain ⟨d, rfl⟩ : ∃ d, i = s.length + 1 + d := ⟨i - s.length - 1, by omega⟩
      rw [show s.length + 1 + d - s.length = d + 1 by omega, List.getElem?_cons_succ]
      by_cases hd : s.length + 1 + d < n
      · rw [getElem?_read m a hd, getElem?_read m _ (by omega)]
        congr 2
        omega
      · rw [List.getElem?_eq_none (by simp; omega), List.getElem?_eq_none (by simp; omega)]
  rw [hread]
  exact cstr_at [] s _ h0

theorem at_append {m : Mem} {a : ℕ} {b c : Bytes} : At m a (b ++ c) ↔ At m a b ∧ At m (a + b.length) c := by
  refine ⟨fun h => ⟨?_, ?_⟩, ?_⟩
  · intro i hi
    rw [← h i (by rw [List.length_append]; omega), List.getElem?_append_left hi]
  · intro i hi
    have := h (b.length + i) (by rw [List.length_append]; omega)
    rw [List.getElem?_append_right (Nat.le_add_right _ _), Nat.add_sub_cancel_left] at this
    rw [this, Nat.add_assoc]
  · intro ⟨hb, hc⟩ i hi
    by_cases hlt : i < b.length
    · rw [List.getElem?_append_left hlt, hb i hlt]
    · rw [List.length_append] at hi
      rw [List.getElem?_append_right (by omega), hc (i - b.length) (by omega)]
      congr 2
      omega

/-- a part of a block that is copied stands at the same distance from the start of the copy -/
theorem At.copy {m : Mem} {src n d : ℕ} {c : Bytes} (h : At m (src + d) c) (hn : d + c.length ≤ n) (m' : Mem) (dst : ℕ) :
    At (Memory.write m' dst (read m src n)) (dst + d) c := by
  intro i hi
  have hread : (read m src n)[d + i]? = some (m (src + d + i)) := by
    rw [getElem?_read m src (by omega), Nat.add_assoc]
  rw [h i hi, ← hread, write_inside m' dst (read m src n) (by rw [length_read]; omega), Nat.add_assoc]

theorem at_memmove {m : Mem} {dst src n : ℕ} {c : Bytes} (h : At m src c) (hn : c.length ≤ n) :
    At (memmove m dst src n) dst c :=
  At.copy (d := 0) h (by omega) m dst

theorem At.memmove {m : Mem} {x : ℕ} {c : Bytes} (h : At m x c) {dst src n : ℕ}
    (hd : x + c.length ≤ dst ∨ dst + n ≤ x) : At (memmove m dst src n) x c :=
  h.write (by rwa [length_read])

theorem At.realloc {m junk : Mem} {a n b d : ℕ} {c : Bytes} (h : At m (a + d) c) (hn : d + c.length ≤ n) :
    At (realloc m junk a n b) (b + d) c :=
  h.copy hn junk b

end AufsUtil.Memory
