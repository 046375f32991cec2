/-
Undoing a partial write (`au_fname_failed` and `move_failed` in `fhsm/list.c`).

When write(2) stores only part of what it was given, both functions try to cut the file back. Both hand lseek(2) its
arguments in the wrong order: SEEK_END is the offset, and the number of bytes to go back is the whence.

- `failed_all_or_nothing_iff`: au_fname_failed records a name or leaves the failed-list alone exactly if the whole
  record was written, or nothing was.
- `failed_refines`: `Fhsm.au_fname_failed`, which lists the changes, leaves this failed-list.
- `merge_whole_iff`: after a partial write of move_failed the list has whole records exactly if the whence
  happens to mean the end of the failed-list, or a hole, and the size of the failed-list happens to lead to
  the end of the old list.

What the model keeps of C: the length of a record is an int, and is asked for as a size_t; one write(2) stores at most
0x7ffff000 bytes; a whence below 0 or above SEEK_HOLE is an error.
-/
import Mathlib.Tactic
import AufsUtil.Lib.CStr
import AufsUtil.Fhsm.List
import AufsUtil.Fhsm.Drain

namespace AufsUtil.Fhsm.Rollback

open AufsUtil.CStr

/-! ## One failed name -/

/-- an integer as size_t -/
def toSize (v : ℤ) : ℕ := (v % 2 ^ 64).toNat

/-- the most that one write(2) stores -/
def MAX_RW_COUNT : ℤ := 0x7ffff000

/-- what write(2) may return when so many bytes are asked for: an error, or any count up to that -/
structure Written (asked : ℕ) where
  ssz : ℤ
  error_or_count : ssz = -1 ∨ 0 ≤ ssz
  le_asked : ssz ≤ asked
  le_max : ssz ≤ MAX_RW_COUNT

/-- l in au_fname_failed: the length of the record with its NUL, as an int -/
def record_len (o : Bytes) (atime : ℕ) : ℤ := toInt (strlen o atime + 1)

/-- err, and the failed-list afterwards -/
def au_fname_failed (o : Bytes) (atime : ℕ) (failed : Bytes) (ssz : ℤ) (ftr : Bool) : ℤ × Bytes :=
  let written := failed ++ (o.drop atime).take ssz.toNat
  if ssz = record_len o atime then (0, written)
  else if ssz > 0 then
    match lseek written.length written.length 2 (toInt (-ssz)) with
    | some off => (-1, if ftr then ftruncate written off else written)
    | none => (-1, written)
  else (-1, written)

/-- after 0 the failed-list has the whole record behind the old ones, else it is what it was -/
def AllOrNothing (failed text : Bytes) (r : ℤ × Bytes) : Prop :=
  (r.1 = 0 → r.2 = failed ++ text ++ [0]) ∧ (r.1 ≠ 0 → r.2 = failed)

theorem lseek_neg {size cur : ℕ} {offset whence : ℤ} (h : whence < 0) : lseek size cur offset whence = none := by
  unfold lseek
  rw [if_neg (by omega), if_neg (by omega), if_neg (by omega), if_neg (by omega), if_neg (by omega)]
  rfl

/-- what has been written is never taken back -/
theorem au_fname_failed_eq (o : Bytes) (atime : ℕ) (failed : Bytes) {ssz : ℤ} (hmax : ssz ≤ MAX_RW_COUNT) (ftr : Bool) :
    au_fname_failed o atime failed ssz ftr =
      (if ssz = record_len o atime then 0 else -1, failed ++ (o.drop atime).take ssz.toNat) := by
  unfold au_fname_failed
  by_cases hall : ssz = record_len o atime
  · simp only [if_pos hall]
  simp only [if_neg hall]
  by_cases hpos : ssz > 0
  · have hwhence : toInt (-ssz) < 0 := by
      unfold MAX_RW_COUNT at hmax
      rw [toInt_of_lt (by omega) (by omega)]
      omega
    rw [if_pos hpos, lseek_neg hwhence]
  · rw [if_neg hpos]

/-- **Recording a failed name is all or nothing exactly in these cases.** For every failed-list, every record in the
list o and every result of write(2): the whole record was stored; or nothing was, and the result is not the record's
length cut to an int. -/
theorem failed_all_or_nothing_iff (pre text post failed : Bytes) (htext : (0 : UInt8) ∉ text)
    (w : Written (toSize (record_len (pre ++ text ++ 0 :: post) pre.length))) (ftr : Bool) :
    AllOrNothing failed text (au_fname_failed (pre ++ text ++ 0 :: post) pre.length failed w.ssz ftr) ↔
      w.ssz = text.length + 1 ∨ (w.ssz ≤ 0 ∧ w.ssz ≠ toInt (text.length + 1)) := by
  have hlen : record_len (pre ++ text ++ 0 :: post) pre.length = toInt (text.length + 1) := by
    rw [record_len, strlen, cstr_at pre text post htext]
  have hdrop : (pre ++ text ++ 0 :: post).drop pre.length = text ++ 0 :: post := by
    rw [List.append_assoc, List.drop_left]
  obtain ⟨ssz, -, -, hmax⟩ := w
  simp only
  rw [au_fname_failed_eq _ _ _ hmax, hlen, hdrop]
  unfold MAX_RW_COUNT at hmax
  have hle : toInt (text.length + 1) ≤ text.length + 1 := toInt_le (by omega)
  unfold AllOrNothing
  by_cases hfull : ssz = text.length + 1
  · -- a complete write, of a record whose length is an int
    have hint : ssz = toInt (text.length + 1) := by rw [toInt_of_lt (by omega) (by omega), hfull]
    have htake : (text ++ 0 :: post).take ssz.toNat = text ++ [0] := by
      have hnat : ssz.toNat = (text ++ [0]).length := by simp [hfull]
      have hsplit : text ++ 0 :: post = text ++ [0] ++ post := by simp
      rw [hnat, hsplit, List.take_left]
    rw [if_pos hint, htake]
    refine iff_of_true ⟨fun _ => ?_, fun h => absurd rfl h⟩ (.inl hfull)
    rw [List.append_assoc]
  by_cases hint : ssz = toInt (text.length + 1)
  · -- taken for a complete write, but only a part of the record is there
    have hshort : failed ++ (text ++ 0 :: post).take ssz.toNat ≠ failed ++ text ++ [0] := by
      intro heq
      have hl := congrArg List.length heq
      simp only [List.length_append, List.length_take, List.length_cons, List.length_nil] at hl
      omega
    rw [if_pos hint]
    refine iff_of_false (fun h => hshort (h.1 rfl)) ?_
    rintro (h | ⟨-, h⟩)
    · exact hfull h
    · exact h hint
  rw [if_neg hint]
  have herr : (-1 : ℤ) ≠ 0 := by decide
  by_cases hpos : ssz ≤ 0
  · have hnat : ssz.toNat = 0 := by omega
    refine iff_of_true ⟨fun h => absurd h herr, fun _ => ?_⟩ (.inr ⟨hpos, hint⟩)
    rw [hnat, List.take_zero, List.append_nil]
  · -- the part stays
    have hpart : failed ++ (text ++ 0 :: post).take ssz.toNat ≠ failed := by
      intro heq
      have hl := congrArg List.length heq
      simp only [List.length_append, List.length_take, List.length_cons] at hl
      omega
    refine iff_of_false (fun h => hpart (h.2 herr)) ?_
    rintro (h | ⟨h, -⟩)
    · exact hfull h
    · exact hpos h

/-- a record of five letters, stored completely behind another one -/
theorem failed_all_stored :
    AllOrNothing [49, 32, 49, 32, 97, 0] [49, 32, 49, 32, 98]
      (au_fname_failed ([] ++ [49, 32, 49, 32, 98] ++ 0 :: []) 0 [49, 32, 49, 32, 97, 0] 6 true) :=
  (failed_all_or_nothing_iff [] [49, 32, 49, 32, 98] [] [49, 32, 49, 32, 97, 0] (by decide)
    ⟨6, .inr (by decide), by decide, by decide⟩ true).2 (.inl rfl)

/-- two bytes of it are stored, and stay -/
theorem failed_part_stays :
    ¬ AllOrNothing [] [49, 32, 49, 32, 98] (au_fname_failed ([] ++ [49, 32, 49, 32, 98] ++ 0 :: []) 0 [] 2 true) := by
  intro h
  exact absurd (h.2 (by decide)) (by decide)

theorem count_le (w : WriteRes) (l : ℕ) : w.count l ≤ l ∧ -1 ≤ w.count l := by
  cases w with
  | full => exact ⟨le_rfl, by simp only [WriteRes.count]; omega⟩
  | error => exact ⟨by simp only [WriteRes.count]; omega, le_rfl⟩
  | short n => exact ⟨by simp only [WriteRes.count]; omega, by simp only [WriteRes.count]; omega⟩

/-- the changes that `Fhsm.au_fname_failed` lists lead to this failed-list, for a record whose length is an int -/
theorem failed_refines (o : Bytes) (fname : Fname) (fs : Files) (w : WriteRes) (ftr : Bool)
    (hlen : (strlen o fname.atime : ℤ) + 1 < 2 ^ 31) :
    ((Fhsm.au_fname_failed o fname fs.failed w ftr).1,
        (apply_all fs (Fhsm.au_fname_failed o fname fs.failed w ftr).2).failed) =
      au_fname_failed o fname.atime fs.failed (w.count (strlen o fname.atime + 1)) ftr := by
  have hl : record_len o fname.atime = ((strlen o fname.atime + 1 : ℕ) : ℤ) := by
    rw [record_len, toInt_of_lt (by omega) hlen]
    simp
  obtain ⟨hle, hlow⟩ := count_le w (strlen o fname.atime + 1)
  have hpart : ∀ ssz : ℤ, ssz ≤ (strlen o fname.atime + 1 : ℕ) →
      ((o.drop fname.atime).take (strlen o fname.atime + 1)).take ssz.toNat = (o.drop fname.atime).take ssz.toNat := by
    intro ssz hssz
    rw [List.take_take, min_eq_left (by omega)]
  unfold Fhsm.au_fname_failed au_fname_failed
  have hl' : toInt ((strlen o fname.atime : ℤ) + 1) = ((strlen o fname.atime + 1 : ℕ) : ℤ) := hl
  simp only [hl, hl', Int.toNat_natCast]
  generalize w.count (strlen o fname.atime + 1) = ssz at hle hlow
  by_cases hfull : ssz = ((strlen o fname.atime + 1 : ℕ) : ℤ)
  · rw [if_pos hfull, if_pos hfull, hfull, Int.toNat_natCast]
    rfl
  rw [if_neg hfull, if_neg hfull]
  by_cases hpos : ssz > 0
  · -- the whence is negative in both
    have hneg : toInt (-ssz) < 0 := by
      rw [toInt_of_lt (by omega) (by omega)]
      omega
    rw [if_pos hpos, if_pos hpos, lseek_neg (show -ssz < 0 by omega), lseek_neg hneg, hpart ssz hle]
    rfl
  · have hnat : ssz.toNat = 0 := by omega
    rw [if_neg hpos, if_neg hpos, hnat, List.take_zero, List.append_nil]
    rfl

/-! ## Merging the failed-list -/

/-- the buffer of move_failed: a NUL, and the records in reverse order -/
def reversed (failed : Bytes) : Bytes := rev_loop failed failed.length (toInt (failed.length - 1)) [0]

/-- the whence after n bytes were written: how far behind them the last NUL of the next n bytes is, or the low bits of
an address if there is none; `heap` is what follows the buffer in memory -/
def whence (failed : Bytes) (n : ℕ) (heap : Bytes) (addr : ℤ) : ℤ :=
  match memrchr ((reversed failed ++ heap).drop n) 0 n with
  | some j => toInt j
  | none => toInt (-(addr + n))

theorem rev_loop_append (o : Bytes) (fuel : ℕ) (left : ℤ) (tgt : Bytes) : tgt <+: rev_loop o fuel left tgt := by
  induction fuel generalizing left tgt with
  | zero => exact List.prefix_refl tgt
  | succ fuel ih =>
    rw [rev_loop]
    by_cases hleft : left > 0
    · rw [if_pos hleft]
      exact (List.prefix_append tgt _).trans (ih _ _)
    · rw [if_neg hleft]

theorem reversed_cons (failed : Bytes) : ∃ x, reversed failed = 0 :: x := by
  obtain ⟨x, hx⟩ := rev_loop_append failed failed.length (toInt (failed.length - 1)) [0]
  exact ⟨x, hx.symm⟩

/-- the system calls of move_failed up to its write(2), which stores n bytes -/
structure Short (sys : MoveSys) (n : ℕ) : Prop where
  fstat : sys.fstat = true
  mmap : sys.mmap = true
  malloc : sys.malloc = true
  write : sys.write = .short n

/-- what a partial write does to the list -/
theorem move_failed_short {failed : Bytes} {sys : MoveSys} {n : ℕ} {err : ℤ} {ops : List FileOp} (h : Short sys n)
    (hn : 1 ≤ n) (hlt : n ≤ failed.length) (hret : move_failed failed sys = (some err, ops)) :
    err = -1 ∧ ops = .list_append ((reversed failed).take n) ::
      match lseek failed.length 0 2 (whence failed n sys.heap sys.addr) with
      | some off => if sys.ftr then [.list_truncate off none] else []
      | none => [] := by
  have hne : failed ≠ [] := by
    rintro rfl
    simp at hlt
    omega
  have hmem : ¬ (!sys.mmap || !sys.malloc) = true := by simp [h.mmap, h.malloc]
  have hcount : sys.write.count (failed.length + 1) = n := by
    rw [h.write, WriteRes.count]
    omega
  unfold move_failed at hret
  rw [if_neg (by simp [h.fstat]), if_neg hne, if_neg hmem, hcount] at hret
  have hrev : rev_loop failed failed.length (toInt (failed.length - 1)) [0] = reversed failed := rfl
  simp only [hrev] at hret
  split at hret
  · cases (Prod.mk.inj hret).1
  · rw [if_neg (by omega), if_pos (by omega)] at hret
    obtain ⟨herr, hops⟩ := Prod.mk.inj hret
    rw [Int.toNat_natCast] at hops
    exact ⟨(Option.some.inj herr).symm, hops.symm⟩

/-- the old records, then whole records of the failed-list; and none of those is missing in both files -/
def WholeRecords (ls fs : List Record) (files : Files) : Prop :=
  ∃ ks js : List Record, files.list = list_file ls ++ list_file ks ∧ files.failed = list_file js ∧
    (∀ k ∈ ks, k ∈ fs) ∧ (∀ j ∈ js, j ∈ fs) ∧ ∀ f ∈ fs, f ∈ ks ∨ f ∈ js

/-- the offset 2 as lseek(2) takes it on a file of at least three bytes -/
theorem lseek_two {size : ℕ} {w : ℤ} {k : ℕ} (hsize : 2 < size) :
    lseek size 0 2 w = some k ↔ (w = 0 ∨ w = 1 ∨ w = 3) ∧ k = 2 ∨ w = 2 ∧ k = size + 2 ∨ w = 4 ∧ k = size := by
  have hlt : (2 : ℤ) < size := by omega
  by_cases hw : 0 ≤ w ∧ w ≤ 4
  · obtain ⟨hlow, hhigh⟩ := hw
    interval_cases w <;> simp [lseek, hlt] <;> omega
  · have hnone : lseek size 0 2 w = none := by
      unfold lseek
      rw [if_neg (by omega), if_neg (by omega), if_neg (by omega), if_neg (by omega), if_neg (by omega)]
      rfl
    rw [hnone]
    exact iff_of_false nofun (by omega)

theorem length_list_file (rs : List Record) : rs = [] ∨ 4 ≤ (list_file rs).length := by
  rcases rs with _ | ⟨r, rs⟩
  · exact .inl rfl
  · right
    have hpath := List.length_pos_iff.2 r.path_ok.2
    simp [list_file, Record.text]
    omega

/-- a record does not start with a NUL -/
theorem list_file_head (rs : List Record) (x : Bytes) : list_file rs ≠ 0 :: x := by
  rcases rs with _ | ⟨r, rs⟩
  · exact nofun
  · intro h
    obtain ⟨c, s, htext⟩ : ∃ c s, r.text = c :: s := List.exists_cons_of_ne_nil (by simp [Record.text])
    have hc : c = 0 := by
      simp only [list_file, List.map_cons, encode_cons, htext, List.cons_append] at h
      exact (List.cons.inj h).1
    exact r.text_nul (by rw [htext, hc]; exact List.mem_cons_self)

/-- a file that may have been cut -/
def cut_at (f : Bytes) : Option ℕ → Bytes
  | some off => ftruncate f off
  | none => f

/-- behind the old records there is a NUL, so the list has to end there -/
theorem whole_records_cut {ls fs : List Record} {x : Bytes} {files : Files} {cut : Option ℕ}
    (hlist : files.list = cut_at (list_file ls ++ 0 :: x) cut)
    (hfailed : files.failed = list_file fs) : WholeRecords ls fs files ↔ cut = some (list_file ls).length := by
  unfold WholeRecords
  constructor
  · rintro ⟨ks, js, hks, -⟩
    rw [hlist] at hks
    cases cut with
    | none => exact absurd (List.append_cancel_left hks).symm (list_file_head ks x)
    | some off =>
      rw [cut_at] at hks
      have hoff : off = (list_file ls).length + (list_file ks).length := by
        have hlen := congrArg List.length hks
        rwa [length_ftruncate, List.length_append] at hlen
      have hfront : list_file ls <+: ftruncate (list_file ls ++ 0 :: x) off := hks ▸ List.prefix_append _ _
      rcases length_list_file ks with rfl | hpos
      · rw [hoff]
        rfl
      · -- a record would start with the NUL
        have hnul : (ftruncate (list_file ls ++ 0 :: x) off)[(list_file ls).length]? = some 0 := by
          have hin : (list_file ls).length < off := by omega
          rw [ftruncate, List.getElem?_append_left (by simp; omega), List.getElem?_take, if_pos hin,
            List.getElem?_append_right le_rfl]
          simp
        rw [hks, List.getElem?_append_right le_rfl, Nat.sub_self] at hnul
        cases hrec : list_file ks with
        | nil =>
          rw [hrec] at hnul
          cases hnul
        | cons c y =>
          rw [hrec] at hnul
          obtain rfl := Option.some.inj hnul
          exact absurd hrec (list_file_head ks y)
  · rintro rfl
    refine ⟨[], fs, ?_, hfailed, by simp, by simp, by simp⟩
    rw [hlist, cut_at, ftruncate, List.take_left]
    simp [list_file]

/-- **A partial merge leaves whole records exactly in these cases.** For every list and failed-list of records
and every count n that write(2) may return: the last NUL of the n bytes behind those written is two bytes away
and the list is two bytes longer than the failed-list, or it is four bytes away and they are as long as each
other; and the list can be cut. -/
theorem merge_whole_iff (ls fs : List Record) (gone : List Bytes) (sys : MoveSys) (n : ℕ) (err : ℤ) (ops : List FileOp)
    (hshort : Short sys n) (hn : 1 ≤ n) (hlt : n ≤ (list_file fs).length)
    (hret : move_failed (list_file fs) sys = (some err, ops)) :
    WholeRecords ls fs (apply_all ⟨list_file ls, list_file fs, gone⟩ ops) ↔ sys.ftr = true ∧
      (whence (list_file fs) n sys.heap sys.addr = 2 ∧ (list_file ls).length = (list_file fs).length + 2 ∨
        whence (list_file fs) n sys.heap sys.addr = 4 ∧ (list_file ls).length = (list_file fs).length) := by
  obtain ⟨-, rfl⟩ := move_failed_short hshort hn hlt hret
  obtain ⟨x, hx⟩ := reversed_cons (list_file fs)
  have htake : (reversed (list_file fs)).take n = 0 :: x.take (n - 1) := by
    obtain ⟨m, rfl⟩ : ∃ m, n = m + 1 := ⟨n - 1, by omega⟩
    rw [hx]
    rfl
  have hsize : 2 < (list_file fs).length := by
    rcases length_list_file fs with rfl | hpos
    · simp [list_file] at hlt
      omega
    · omega
  generalize whence (list_file fs) n sys.heap sys.addr = w
  -- the list is cut where lseek leads, if ftruncate lets it
  have hfiles : apply_all ⟨list_file ls, list_file fs, gone⟩ (.list_append ((reversed (list_file fs)).take n) ::
      match lseek (list_file fs).length 0 2 w with
      | some off => if sys.ftr then [.list_truncate off none] else []
      | none => []) = ⟨cut_at (list_file ls ++ 0 :: x.take (n - 1))
        (if sys.ftr then lseek (list_file fs).length 0 2 w else none), list_file fs, gone⟩ := by
    rw [htake]
    cases sys.ftr <;> cases lseek (list_file fs).length 0 2 w <;> rfl
  rw [hfiles, whole_records_cut rfl rfl]
  cases sys.ftr with
  | false => simp
  | true =>
    rw [if_pos rfl, lseek_two hsize]
    simp only [true_and]
    rcases length_list_file ls with rfl | hpos
    · simp [list_file]
    · omega

/-- n bytes are written; what follows the buffer in memory holds no NUL -/
def merge_b (n : ℕ) : MoveSys := ⟨true, true, true, .short n, true, [], 0⟩

/-- a list of 15 bytes, and a failed-list of 13 -/
def fifteen : List Record := [long_path 1, long_path 2]

def thirteen : List Record := [long_path 1, long_path 0]

/-- four bytes are written, and of the next four, which are all in the buffer, the third one is a NUL -/
theorem merge_whole_aaa : WholeRecords fifteen thirteen
    (apply_all ⟨list_file fifteen, list_file thirteen, []⟩ (move_failed (list_file thirteen) (merge_b 4)).2) :=
  (merge_whole_iff fifteen thirteen [] (merge_b 4) 4 (-1) (move_failed (list_file thirteen) (merge_b 4)).2
    ⟨rfl, rfl, rfl, rfl⟩ (by decide) (by decide) (by decide)).2 ⟨rfl, .inl ⟨by decide, by decide⟩⟩

/-- one byte of it is written behind `1 1 a`: the NUL, and it stays -/
theorem merge_leaves_nul : ¬ WholeRecords [one_letter 97 (by decide)] [one_letter 98 (by decide)]
    (apply_all ⟨list_file [one_letter 97 (by decide)], list_file [one_letter 98 (by decide)], []⟩
      (move_failed (list_file [one_letter 98 (by decide)]) (merge_b 1)).2) := by
  rintro ⟨ks, js, hks, -⟩
  have hlist : (apply_all ⟨list_file [one_letter 97 (by decide)], list_file [one_letter 98 (by decide)], []⟩
      (move_failed (list_file [one_letter 98 (by decide)]) (merge_b 1)).2).list =
      list_file [one_letter 97 (by decide)] ++ [0] := by decide
  rw [hlist] at hks
  exact list_file_head ks [] (List.append_cancel_left hks).symm

end AufsUtil.Fhsm.Rollback
