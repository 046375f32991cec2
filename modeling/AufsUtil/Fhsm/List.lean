/-
The list of file names of a branch and its failed-list (`fhsm/list.c`).

A record is `<atime> <blocks> <path>` and a NUL. The list is consumed from its end: au_fname_one finds the last record,
and the caller cuts it off with ftruncate(2). A name that could not be moved is appended to the failed-list, and
move_failed brings those back: it writes the records of the failed-list in reverse order behind the list, in one
write(2), and then empties the failed-list. An empty list is written anew by the lister.

A function of this file returns its value and the changes it makes to the two files, one for each system call,
in their order (`FileOp`); the value `none` means that the process is gone (AuLogFin). The results of the
system calls are inputs.

- `au_fname_one_spec`: in a file of records, the last one is found.
- `move_failed_spec`: what move_failed can do to the files when its write is complete or writes nothing.

What the model keeps of C:
- lengths pass through int (`toInt`);
- lseek(2) is called with offset and whence exchanged, so undoing a partial write fails, or cuts the list at a wrong
  place (`heap` and `addr` say what memrchr finds behind the buffer);
- the buffer of move_failed starts with a NUL, so the list gets an empty record between the old and the moved ones;
- au_list returns 0 when it cannot open the directory (`early`).
The lister's output is given, as records; the descriptors au_list opens and closes are left out.
-/
import Mathlib.Tactic
import AufsUtil.Lib.CStr

namespace AufsUtil.Fhsm

open AufsUtil.CStr

/-! ## Files -/

/-- how the attempt to move one file down went; the link count is known if fstat(2) succeeded -/
inductive Attempt where
  | moved
  | enoent
  | erofs
  | einval
  | busy (nlink : Option ℕ)
  | other
deriving DecidableEq, Repr

/-- the outcomes that need no second attempt -/
def Attempt.excused : Attempt → Bool
  | .moved | .enoent | .erofs | .einval => true
  | .busy (some n) => n != 1
  | .busy none | .other => false

/-- one change to one of the files; the cut of the list says which record it was for, and how the attempt went -/
inductive FileOp where
  | list_append (b : Bytes)
  | list_truncate (len : ℕ) (by_ : Option (Bytes × Attempt))
  | list_write (b : Bytes)
  | failed_append (b : Bytes)
  | failed_truncate (len : ℕ)
deriving DecidableEq, Repr

/-- the two files, and the records that excused attempts have consumed so far -/
structure Files where
  list : Bytes
  failed : Bytes
  gone : List Bytes
deriving DecidableEq, Repr

def ftruncate (f : Bytes) (len : ℕ) : Bytes := f.take len ++ List.replicate (len - f.length) 0

def FileOp.apply (fs : Files) : FileOp → Files
  | .list_append b => { fs with list := fs.list ++ b }
  | .list_truncate len none => { fs with list := ftruncate fs.list len }
  | .list_truncate len (some (r, a)) =>
    { fs with list := ftruncate fs.list len, gone := if a.excused then r :: fs.gone else fs.gone }
  | .list_write b => { fs with list := b }
  | .failed_append b => { fs with failed := fs.failed ++ b }
  | .failed_truncate len => { fs with failed := ftruncate fs.failed len }

def apply_all (fs : Files) (ops : List FileOp) : Files := ops.foldl FileOp.apply fs

/-- write(2) -/
inductive WriteRes where
  | full
  | error
  | short (n : ℕ)
deriving DecidableEq, Repr

/-- its return value, l bytes being asked for -/
def WriteRes.count (l : ℕ) : WriteRes → ℤ
  | .full => l
  | .error => -1
  | .short n => min n l

/-- complete, or nothing was written -/
def WriteRes.Whole (w : WriteRes) : Prop := w = .full ∨ w = .error ∨ w = .short 0

/-- lseek(2) on a file without holes; `none` is -1 -/
def lseek (size cur : ℕ) (offset whence : ℤ) : Option ℕ :=
  let pos : Option ℤ :=
    if whence = 0 then some offset
    else if whence = 1 then some (cur + offset)
    else if whence = 2 then some (size + offset)
    else if whence = 3 then if offset < size then some offset else none
    else if whence = 4 then if offset < size then some size else none
    else none
  (pos.filter (0 ≤ ·)).map Int.toNat

/-! ## One name -/

/-- struct au_fname: indices into the list -/
structure Fname where
  atime : ℕ
  sz : ℕ
  name : ℕ
  len : ℤ
deriving DecidableEq, Repr

/-- `none` is AuLogFin, or a fault on an empty list -/
def au_fname_one (o : Bytes) (len : ℕ) : Option Fname :=
  if len = 0 then none
  else
    let a : ℕ × ℤ :=
      match memrchr o 0 (len - 1) with
      | some p => (p + 1, toInt (len - p - 1))
      | none => (0, toInt len)
    match strchr o a.1 32 with
    | none => none
    | some s =>
      match strchr o (s + 1) 32 with
      | none => none
      | some n => some ⟨a.1, s + 1, n + 1, a.2⟩

def au_fname_failed (o : Bytes) (fname : Fname) (failed : Bytes) (write : WriteRes) (ftr : Bool) :
    ℤ × List FileOp :=
  let l := toInt (strlen o fname.atime + 1)
  let buf := (o.drop fname.atime).take l.toNat
  let ssz := write.count l.toNat
  if ssz = l then (0, [.failed_append buf])
  else if ssz > 0 then
    (-1, .failed_append (buf.take ssz.toNat) ::
      match lseek (failed.length + ssz.toNat) (failed.length + ssz.toNat) 2 (-ssz) with
      | some off => if ftr then [.failed_truncate off] else []
      | none => [])
  else (-1, [])

/-! ## Merging the failed-list -/

structure MoveSys where
  fstat : Bool
  mmap : Bool
  malloc : Bool
  write : WriteRes
  ftr : Bool
  /-- the bytes behind the buffer `rev`, and its address -/
  heap : Bytes
  addr : ℤ

/-- the loop that copies the records in reverse order; `fuel` bounds the number of turns -/
def rev_loop (o : Bytes) : ℕ → ℤ → Bytes → Bytes
  | 0, _, tgt => tgt
  | fuel + 1, left, tgt =>
    if left > 0 then
      let src :=
        match memrchr o 0 left.toNat with
        | some p => p + 1
        | none => 0
      let l := toInt (strlen o src + 1)
      rev_loop o fuel (toInt (left - l)) (tgt ++ (o.drop src).take l.toNat)
    else tgt

def move_failed (failed : Bytes) (sys : MoveSys) : Option ℤ × List FileOp :=
  if !sys.fstat then (some (-1), [])
  else if failed = [] then (some 0, [])
  else if !sys.mmap || !sys.malloc then (some (-1), [])
  else
    let rev := rev_loop failed failed.length (toInt (failed.length - 1)) [0]
    if rev.length ≠ failed.length + 1 then (none, [])
    else
      let ssz := sys.write.count (failed.length + 1)
      if ssz = failed.length + 1 then
        if sys.ftr then (some 0, [.list_append rev, .failed_truncate 0]) else (some (-1), [.list_append rev])
      else if ssz > 0 then
        let whence :=
          match memrchr ((rev ++ sys.heap).drop ssz.toNat) 0 ssz.toNat with
          | some j => toInt j
          | none => toInt (-(sys.addr + ssz))
        (some (-1), .list_append (rev.take ssz.toNat) ::
          match lseek failed.length 0 2 whence with
          | some off => if sys.ftr then [.list_truncate off none] else []
          | none => [])
      else (some (-1), [])

/-- what the lister leaves in the list: records, each with its NUL -/
structure Listing where
  recs : List Bytes
  nul_free : ∀ r ∈ recs, (0 : UInt8) ∉ r

structure ListSys where
  /-- what au_list returns when a step before its fstat(2) fails -/
  early : Option ℤ
  fstat : Bool
  move : MoveSys
  /-- the list the lister leaves, if it got so far, and what run_cmd returns -/
  output : Option Listing
  cmd : ℤ

def au_list (fs : Files) (sys : ListSys) : Option ℤ × List FileOp :=
  match sys.early with
  | some err => (some err, [])
  | none =>
    if !sys.fstat then (some (-1), [])
    else if fs.list ≠ [] then move_failed fs.failed sys.move
    else
      match sys.output with
      | none => (some sys.cmd, [])
      | some l => (some sys.cmd, [.list_write (encode l.recs)])

/-! ## What they do on files of records -/

theorem WriteRes.Whole.count_cases {w : WriteRes} (h : w.Whole) {l : ℕ} (hl : 0 < l) :
    w.count l = l ∨ (w.count l ≠ l ∧ ¬ w.count l > 0) := by
  rcases h with rfl | rfl | rfl
  · exact Or.inl rfl
  · refine Or.inr ⟨fun hc => ?_, fun hc => ?_⟩ <;> simp only [WriteRes.count] at hc <;> omega
  · refine Or.inr ⟨fun hc => ?_, fun hc => ?_⟩ <;> simp only [WriteRes.count] at hc <;> omega

theorem encode_concat (ts : List Bytes) (r : Bytes) : encode (ts ++ [r]) = encode ts ++ r ++ [0] := by simp

theorem length_encode_concat (ts : List Bytes) (r : Bytes) :
    (encode (ts ++ [r])).length = (encode ts).length + r.length + 1 := by
  rw [encode_concat]
  simp
  omega

theorem strchr_nonempty {s : Bytes} {i k : ℕ} {c : UInt8} (h : strchr s i c = some k) : cstr s i ≠ [] := by
  intro hnil
  simp [strchr, hnil] at h

theorem encode_pos {ts : List Bytes} (h : ts ≠ []) : 0 < (encode ts).length := by
  obtain ⟨t, us, rfl⟩ := List.exists_cons_of_ne_nil h
  simp

/-- au_fname_one starts behind the NUL of the record before, or at the start of the list -/
theorem au_fname_one_concat (ts : List Bytes) (r : Bytes) (hr : (0 : UInt8) ∉ r) (hlen : r.length + 1 < 2 ^ 31) :
    au_fname_one (encode (ts ++ [r])) (encode (ts ++ [r])).length =
      match strchr (encode (ts ++ [r])) (encode ts).length 32 with
      | none => none
      | some s =>
        match strchr (encode (ts ++ [r])) (s + 1) 32 with
        | none => none
        | some n => some ⟨(encode ts).length, s + 1, n + 1, r.length + 1⟩ := by
  have hl := length_encode_concat ts r
  have hmem : memrchr (encode (ts ++ [r])) 0 ((encode (ts ++ [r])).length - 1) =
      if ts = [] then none else some ((encode ts).length - 1) := by
    rw [hl, Nat.add_sub_cancel, ← List.length_append, encode_concat]
    exact memrchr_encode ts r [0] hr
  -- in both cases the record starts behind the other records
  have hstart : (match memrchr (encode (ts ++ [r])) 0 ((encode (ts ++ [r])).length - 1) with
      | some p => (p + 1, toInt ((encode (ts ++ [r])).length - p - 1))
      | none => (0, toInt (encode (ts ++ [r])).length)) = ((encode ts).length, (r.length : ℤ) + 1) := by
    rw [hmem]
    by_cases hts : ts = []
    · subst hts
      have hall : ((encode ([] ++ [r])).length : ℤ) = r.length + 1 := by rw [hl]; simp
      simp only [if_true]
      rw [hall, toInt_of_lt (by omega) (by omega)]
      simp
    · have hpos := encode_pos hts
      have hrec : ((encode (ts ++ [r])).length : ℤ) - ((encode ts).length - 1 : ℕ) - 1 = r.length + 1 := by omega
      rw [if_neg hts]
      simp only [Prod.mk.injEq]
      refine ⟨by omega, ?_⟩
      rw [hrec, toInt_of_lt (by omega) (by omega)]
  unfold au_fname_one
  rw [if_neg (by omega)]
  simp only [hstart]

/-- the last record is found, with its length, and it is not empty -/
theorem au_fname_one_spec (ts : List Bytes) (r : Bytes) (hr : (0 : UInt8) ∉ r) (f : Fname)
    (hlen : (encode (ts ++ [r])).length < 2 ^ 31)
    (h : au_fname_one (encode (ts ++ [r])) (encode (ts ++ [r])).length = some f) :
    f.atime = (encode ts).length ∧ f.len = r.length + 1 ∧ cstr (encode (ts ++ [r])) f.atime = r ∧ r ≠ [] := by
  have hl := length_encode_concat ts r
  have hcstr : cstr (encode (ts ++ [r])) (encode ts).length = r := by
    rw [encode_concat]
    exact cstr_encode ts r [] hr
  rw [au_fname_one_concat ts r hr (by omega)] at h
  cases hs : strchr (encode (ts ++ [r])) (encode ts).length 32 with
  | none =>
    rw [hs] at h
    cases h
  | some i =>
    rw [hs] at h
    simp only at h
    cases hn : strchr (encode (ts ++ [r])) (i + 1) 32 with
    | none =>
      rw [hn] at h
      cases h
    | some j =>
      rw [hn] at h
      obtain rfl := Option.some.inj h
      exact ⟨rfl, rfl, hcstr, hcstr ▸ strchr_nonempty hs⟩

/-- a name is appended as a whole, or nothing is -/
theorem au_fname_failed_spec (ts : List Bytes) (r failed : Bytes) (hr : (0 : UInt8) ∉ r) (f : Fname)
    (hlen : (encode (ts ++ [r])).length < 2 ^ 31) (hf : f.atime = (encode ts).length) (w : WriteRes) (hw : w.Whole)
    (ftr : Bool) :
    au_fname_failed (encode (ts ++ [r])) f failed w ftr = (0, [.failed_append (r ++ [0])]) ∨
      au_fname_failed (encode (ts ++ [r])) f failed w ftr = (-1, []) := by
  have hl := length_encode_concat ts r
  have hcstr : cstr (encode (ts ++ [r])) (encode ts).length = r := by
    rw [encode_concat]
    exact cstr_encode ts r [] hr
  have hbuf : (encode (ts ++ [r])).drop (encode ts).length = r ++ [0] := by
    rw [encode_concat, List.append_assoc, List.drop_left]
  have hint : toInt ((strlen (encode (ts ++ [r])) (encode ts).length : ℤ) + 1) = ((r.length + 1 : ℕ) : ℤ) := by
    rw [strlen, hcstr, toInt_of_lt (by omega) (by omega)]
    simp
  unfold au_fname_failed
  simp only [hf, hint, hbuf, Int.toNat_natCast]
  rcases hw.count_cases (show 0 < r.length + 1 by omega) with hc | ⟨hne, hpos⟩
  · left
    have htake : (r ++ [0]).take (r.length + 1) = r ++ [0] := List.take_of_length_le (by simp)
    rw [if_pos hc, htake]
  · right
    rw [if_neg hne, if_neg hpos]

/-- the loop of move_failed over the records ts: they come out in reverse order -/
theorem rev_loop_spec (ts : List Bytes) : ∀ (s tgt : Bytes) (fuel : ℕ), (∀ r ∈ ts, (0 : UInt8) ∉ r ∧ r ≠ []) →
    ts.length ≤ fuel → (encode ts).length < 2 ^ 31 →
    rev_loop (encode ts ++ s) fuel ((encode ts).length - 1) tgt = tgt ++ encode ts.reverse := by
  induction ts using List.reverseRecOn with
  | nil =>
    intro s tgt fuel _ _ _
    cases fuel <;> simp [rev_loop]
  | append_singleton ts r ih =>
    intro s tgt fuel hrec hfuel hlen
    obtain ⟨hr, hne⟩ := hrec r (by simp)
    have hl := length_encode_concat ts r
    have hrpos : 0 < r.length := List.length_pos_iff.2 hne
    obtain ⟨fuel, rfl⟩ : ∃ n, fuel = n + 1 := ⟨fuel - 1, by simp at hfuel; omega⟩
    have hleft : ((encode (ts ++ [r])).length : ℤ) - 1 = ((encode ts ++ r).length : ℕ) := by
      rw [hl, List.length_append]
      omega
    have hsplit : encode (ts ++ [r]) ++ s = encode ts ++ r ++ 0 :: s := by simp
    have hsrc : (match memrchr (encode ts ++ r ++ 0 :: s) 0 (encode ts ++ r).length with
        | some p => p + 1
        | none => 0) = (encode ts).length := by
      rw [memrchr_encode ts r (0 :: s) hr]
      by_cases hts : ts = []
      · subst hts
        rfl
      · have := encode_pos hts
        rw [if_neg hts]
        simp only
        omega
    have hint : toInt ((strlen (encode ts ++ r ++ 0 :: s) (encode ts).length : ℤ) + 1) = ((r.length + 1 : ℕ) : ℤ) := by
      rw [strlen, cstr_encode ts r s hr, toInt_of_lt (by omega) (by omega)]
      simp
    have hrest : toInt (((encode ts ++ r).length : ℕ) - ((r.length + 1 : ℕ) : ℤ)) = (encode ts).length - 1 := by
      rw [List.length_append, toInt_of_lt (by omega) (by omega)]
      push_cast
      omega
    have hdrop : (encode ts ++ r ++ 0 :: s).drop (encode ts).length = (r ++ [0]) ++ s := by
      rw [List.append_assoc, List.drop_left]
      simp
    rw [rev_loop, hleft, if_pos (by rw [List.length_append]; omega), hsplit]
    simp only [Int.toNat_natCast, hsrc, hint, hrest, hdrop]
    have htake : (r ++ [0] ++ s).take (r.length + 1) = r ++ [0] := List.take_left' (by simp)
    have hshape : encode ts ++ r ++ 0 :: s = encode ts ++ (r ++ 0 :: s) := List.append_assoc _ _ _
    rw [htake, hshape, ih (r ++ 0 :: s) (tgt ++ (r ++ [0])) fuel (fun t ht => hrec t (by simp [ht]))
      (by simp at hfuel; omega) (by omega)]
    simp

theorem length_encode_reverse (ts : List Bytes) : (encode ts.reverse).length = (encode ts).length := by
  induction ts with
  | nil => rfl
  | cons r ts ih =>
    simp [ih]
    omega

/-- the buffer of move_failed over the records ts -/
theorem rev_loop_records (ts : List Bytes) (hts : ∀ r ∈ ts, (0 : UInt8) ∉ r ∧ r ≠ [])
    (hlen : (encode ts).length < 2 ^ 31) :
    rev_loop (encode ts) (encode ts).length (toInt ((encode ts).length - 1)) [0] = 0 :: encode ts.reverse := by
  have hcount : ts.length ≤ (encode ts).length := by
    clear hts hlen
    induction ts with
    | nil => simp
    | cons r ts ih =>
      simp
      omega
  rw [toInt_of_lt (by omega) (by omega)]
  have := rev_loop_spec ts [] [0] (encode ts).length hts hcount hlen
  rwa [List.append_nil] at this

/-- on a failed-list of records move_failed does nothing, or it writes them, reversed and behind a NUL, to the list and
then empties the failed-list, if ftruncate(2) lets it -/
theorem move_failed_spec (ts : List Bytes) (hts : ∀ r ∈ ts, (0 : UInt8) ∉ r ∧ r ≠ [])
    (hlen : (encode ts).length < 2 ^ 31) (sys : MoveSys) (hw : sys.write.Whole) :
    (move_failed (encode ts) sys).2 = [] ∨
      (move_failed (encode ts) sys).2 = [.list_append (0 :: encode ts.reverse)] ∨
      (move_failed (encode ts) sys).2 = [.list_append (0 :: encode ts.reverse), .failed_truncate 0] := by
  unfold move_failed
  by_cases hfstat : (!sys.fstat) = true
  · rw [if_pos hfstat]
    exact Or.inl rfl
  by_cases hempty : encode ts = []
  · rw [if_neg hfstat, if_pos hempty]
    exact Or.inl rfl
  by_cases hmem : (!sys.mmap || !sys.malloc) = true
  · rw [if_neg hfstat, if_neg hempty, if_pos hmem]
    exact Or.inl rfl
  rw [if_neg hfstat, if_neg hempty, if_neg hmem, rev_loop_records ts hts hlen]
  simp only [List.length_cons, length_encode_reverse, ne_eq, not_true_eq_false, if_false]
  rcases hw.count_cases (show 0 < (encode ts).length + 1 by omega) with hc | ⟨hne, hpos⟩
  · right
    rw [if_pos (by rw [hc]; simp)]
    cases sys.ftr
    · exact Or.inl rfl
    · exact Or.inr rfl
  · left
    rw [if_neg (by simpa using hne), if_neg hpos]

end AufsUtil.Fhsm
