/-
Blocks of malloc(3), each the list of its bytes.

`store` puts bytes at an index of a block and fails if they do not fit in; `resize` is realloc(3), which keeps what both
sizes have in common; `strcat` appends to the string at the start of a block.

- `store_append`, `store_inside`: a store behind known bytes, and one that keeps the size of the block.
- `resize_append`, `resize_prefix`, `take_resize`: what a block holds once it has grown.
- `strcat_append`, `resize_text`: a string that grows inside of its block, and one whose block grows.
-/
import Mathlib.Tactic
import AufsUtil.Lib.CStr

namespace AufsUtil.Block

open AufsUtil.CStr

/-- the bytes s are stored from i on -/
def store (b : Bytes) (i : ℕ) (s : Bytes) : Option Bytes :=
  if i + s.length ≤ b.length then some (b.take i ++ s ++ b.drop (i + s.length)) else none

/-- realloc(3); the new bytes are arbitrary -/
def resize (b : Bytes) (n : ℕ) (junk : ℕ → UInt8) : Bytes := (List.range n).map fun i => b.getD i (junk i)

/-- malloc(3) -/
def malloc (n : ℕ) (junk : ℕ → UInt8) : Bytes := resize [] n junk

/-- strcat(3) to the string at the start -/
def strcat (b s : Bytes) : Option Bytes := store b (strlen b 0) (s ++ [0])

/-! ## Stores -/

theorem store_append {x y s : Bytes} (h : s.length ≤ y.length) :
    store (x ++ y) x.length s = some (x ++ s ++ y.drop s.length) := by
  rw [store, if_pos (by rw [List.length_append]; omega), List.take_left, List.drop_append]
  simp

/-- a store succeeds exactly inside of the block -/
theorem store_isSome {b s : Bytes} {i : ℕ} : (store b i s).isSome ↔ i + s.length ≤ b.length := by
  rw [store]
  split_ifs with h <;> simp [h]

theorem store_inside {b s b' : Bytes} {i : ℕ} (h : store b i s = some b') : b'.length = b.length := by
  rw [store] at h
  split_ifs at h with hle
  rw [Option.some.injEq] at h
  rw [← h, List.length_append, List.length_append, List.length_take, List.length_drop]
  omega

/-- behind a step that has not failed -/
theorem ok_bind {ε α β : Type} (a : α) (f : α → Except ε β) : ((.ok a : Except ε α) >>= f) = f a := rfl

/-! ## Growth -/

@[simp] theorem length_resize (b : Bytes) (n : ℕ) (junk : ℕ → UInt8) : (resize b n junk).length = n := by simp [resize]

@[simp] theorem length_malloc (n : ℕ) (junk : ℕ → UInt8) : (malloc n junk).length = n := length_resize [] n junk

/-- the bytes at the start of a block are kept -/
theorem resize_prefix {x b : Bytes} {n : ℕ} (junk : ℕ → UInt8) (hb : x <+: b) (hn : x.length ≤ n) :
    x <+: resize b n junk := by
  obtain ⟨y, rfl⟩ := hb
  refine List.prefix_iff_getElem?.2 fun i hi => ?_
  rw [resize, List.getElem?_map, List.getElem?_range (by omega), Option.map_some, List.getD_eq_getElem?_getD,
    List.getElem?_append_left hi, List.getElem?_eq_getElem hi, Option.getD_some]

theorem take_resize {b : Bytes} {i n : ℕ} (junk : ℕ → UInt8) (hb : i ≤ b.length) (hn : i ≤ n) :
    (resize b n junk).take i = b.take i := by
  have hlen : (b.take i).length = i := by
    rw [List.length_take, Nat.min_eq_left hb]
  have hkeep : b.take i <+: resize b n junk := resize_prefix junk (List.take_prefix i b) (by rw [hlen]; exact hn)
  have heq := List.prefix_iff_eq_take.1 hkeep
  rw [hlen] at heq
  exact heq.symm

theorem resize_append {x : Bytes} {n : ℕ} (y : Bytes) (junk : ℕ → UInt8) (hn : x.length ≤ n) :
    ∃ z, resize (x ++ y) n junk = x ++ z ∧ z.length = n - x.length := by
  obtain ⟨z, hz⟩ := resize_prefix junk (List.prefix_append x y) hn
  refine ⟨z, hz.symm, ?_⟩
  have hlen := congrArg List.length hz
  rw [List.length_append, length_resize] at hlen
  omega

/-! ## Strings -/

theorem cstr_zero {t : Bytes} (y : Bytes) (h : (0 : UInt8) ∉ t) : cstr (t ++ 0 :: y) 0 = t := cstr_at [] t y h

theorem strlen_zero {t : Bytes} (y : Bytes) (h : (0 : UInt8) ∉ t) : strlen (t ++ 0 :: y) 0 = t.length := by
  rw [strlen, cstr_zero y h]

/-- a block that grows keeps its string -/
theorem resize_text {t : Bytes} {n : ℕ} (y : Bytes) (junk : ℕ → UInt8) (hn : t.length + 1 ≤ n) :
    ∃ z, resize (t ++ 0 :: y) n junk = t ++ 0 :: z ∧ z.length = n - t.length - 1 := by
  obtain ⟨z, hz, hlen⟩ := resize_append (x := t ++ [0]) (n := n) y junk (by simpa using hn)
  refine ⟨z, by simpa using hz, ?_⟩
  rw [hlen, List.length_append, List.length_singleton]
  omega

theorem strcat_append {t y s : Bytes} (h : (0 : UInt8) ∉ t) (hs : s.length ≤ y.length) :
    strcat (t ++ 0 :: y) s = some ((t ++ s) ++ 0 :: y.drop s.length) := by
  rw [strcat, strlen_zero y h, store_append (by simpa using hs)]
  simp

end AufsUtil.Block
