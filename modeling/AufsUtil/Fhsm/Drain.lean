/-
The list after the failed-list was merged back (`move_failed` in `fhsm/list.c`, the cut in `fhsm/mvdown.c`).

The daemon takes the names off the end of the list, one by one: au_fname_one finds the last record, ftruncate(2) cuts
fname.len bytes off. `Drains o rs` says that this takes the records rs off the list o, in this order, and ends at size 0
without AuLogFin.

- `Drains.length_le`: a list that drains is no longer than the records that come out of it, and where it is as long, no
  record is too long for fname.len.
- `drains_records`: a file of records drains, from its end.
- `read_back_iff`: every record is read back as it was written, exactly if no record has 2^31 bytes.
- `merged_drains_iff`: after a move_failed that succeeded the list drains as it should if and only if there was nothing
  to merge (and no record has 2^31 bytes). What move_failed writes starts with a NUL: behind the old list this is an
  empty record, and au_fname_one ends the daemon there.
-/
import Mathlib.Tactic
import AufsUtil.Fhsm.List

namespace AufsUtil.Fhsm

open AufsUtil.CStr

/-! ## Records -/

/-- `<atime> <blocks> <path>` -/
structure Record where
  atime : Bytes
  blocks : Bytes
  path : Bytes
  atime_ok : (0 : UInt8) ∉ atime ∧ (32 : UInt8) ∉ atime
  blocks_ok : (0 : UInt8) ∉ blocks ∧ (32 : UInt8) ∉ blocks
  path_ok : (0 : UInt8) ∉ path ∧ path ≠ []

def Record.text (r : Record) : Bytes := r.atime ++ 32 :: (r.blocks ++ 32 :: r.path)

/-- a file of records, each with its NUL -/
def list_file (rs : List Record) : Bytes := encode (rs.map Record.text)

theorem Record.text_nul (r : Record) : (0 : UInt8) ∉ r.text := by
  simp [Record.text, r.atime_ok.1, r.blocks_ok.1, r.path_ok.1]

/-! ## Taking names off the end -/

/-- what is taken: the text of the record, and the file name in it -/
def Record.taken (r : Record) : Bytes × Bytes := (r.text, r.path)

/-- au_fname_one and the cut of do_mvdown; what is taken, and the list that is left -/
def take_last (o : Bytes) : Option ((Bytes × Bytes) × Bytes) :=
  (au_fname_one o o.length).map fun fname =>
    ((cstr o fname.atime, cstr o fname.name), ftruncate o ((o.length : ℤ) - fname.len).toNat)

/-- taking names until the size is 0 -/
inductive Drains : Bytes → List (Bytes × Bytes) → Prop
  | empty : Drains [] []
  | take {o o' : Bytes} {r : Bytes × Bytes} {rs : List (Bytes × Bytes)} (h : take_last o = some (r, o'))
      (rest : Drains o' rs) : Drains o (r :: rs)

/-! ## A list is no longer than what comes out of it -/

theorem memrchr_none {s : Bytes} {c : UInt8} {n : ℕ} (h : memrchr s c n = none) : ∀ i < n, s[i]? ≠ some c := by
  induction n with
  | zero =>
    intro i hi
    omega
  | succ n ih =>
    rw [memrchr] at h
    by_cases hc : s[n]? = some c
    · rw [if_pos hc] at h
      cases h
    · rw [if_neg hc] at h
      intro i hi
      rcases Nat.lt_succ_iff_lt_or_eq.1 hi with hlt | rfl
      · exact ih h i hlt
      · exact hc

theorem memrchr_some {s : Bytes} {c : UInt8} {n p : ℕ} (h : memrchr s c n = some p) :
    p < n ∧ ∀ i, p < i → i < n → s[i]? ≠ some c := by
  induction n with
  | zero => cases h
  | succ n ih =>
    rw [memrchr] at h
    by_cases hc : s[n]? = some c
    · rw [if_pos hc] at h
      obtain rfl := Option.some.inj h
      exact ⟨Nat.lt_succ_self n, fun i hi hn => by omega⟩
    · rw [if_neg hc] at h
      obtain ⟨hlt, hno⟩ := ih h
      refine ⟨by omega, ?_⟩
      intro i hi hn
      rcases Nat.lt_succ_iff_lt_or_eq.1 hn with hn | rfl
      · exact hno i hi hn
      · exact hc

/-- a string without NUL in it is as long as its bytes -/
theorem le_strlen {o : Bytes} {i k : ℕ} (hk : i + k ≤ o.length) (h : ∀ j, i ≤ j → j < i + k → o[j]? ≠ some 0) :
    k ≤ strlen o i := by
  have hall : ∀ c ∈ (o.drop i).take k, (decide (c ≠ 0)) = true := by
    intro c hc
    obtain ⟨j, hj⟩ := List.mem_iff_getElem?.1 hc
    have hjk : j < k := by
      by_contra hge
      rw [List.getElem?_take, if_neg hge] at hj
      cases hj
    rw [List.getElem?_take, if_pos hjk, List.getElem?_drop] at hj
    rw [decide_eq_true_eq]
    intro h0
    exact h (i + j) (by omega) (by omega) (h0 ▸ hj)
  have hsplit : cstr o i = (o.drop i).take k ++ ((o.drop i).drop k).takeWhile (· ≠ 0) := by
    calc cstr o i = ((o.drop i).take k ++ (o.drop i).drop k).takeWhile (· ≠ 0) := by
          rw [List.take_append_drop]
          rfl
      _ = _ := List.takeWhile_append_of_pos hall
  rw [strlen, hsplit, List.length_append, List.length_take, List.length_drop]
  omega

theorem toInt_le {v : ℤ} (h : 0 ≤ v) : toInt v ≤ v := by
  unfold toInt
  omega

theorem toInt_lt (v : ℤ) : toInt v < 2 ^ 31 := by
  unfold toInt
  omega

theorem length_ftruncate (f : Bytes) (len : ℕ) : (ftruncate f len).length = len := by
  simp [ftruncate]
  omega

/-- fname.len is no more than the record, the list or an int hold -/
theorem au_fname_one_len {o : Bytes} {fname : Fname} (hone : au_fname_one o o.length = some fname) :
    fname.len ≤ strlen o fname.atime + 1 ∧ fname.len ≤ o.length ∧ fname.len < 2 ^ 31 := by
  unfold au_fname_one at hone
  by_cases h0 : o.length = 0
  · rw [if_pos h0] at hone
    cases hone
  rw [if_neg h0] at hone
  cases hm : memrchr o 0 (o.length - 1) with
  | none =>
    simp only [hm] at hone
    have hbound := toInt_le (v := (o.length : ℤ)) (by omega)
    have hstr : o.length - 1 ≤ strlen o 0 := le_strlen (by omega) fun j _ hj => memrchr_none hm j (by omega)
    split at hone
    · cases hone
    · split at hone
      · cases hone
      · obtain rfl := Option.some.inj hone
        refine ⟨?_, hbound, toInt_lt _⟩
        simp only
        omega
  | some p =>
    simp only [hm] at hone
    obtain ⟨hp, hno⟩ := memrchr_some hm
    have hbound := toInt_le (v := (o.length : ℤ) - p - 1) (by omega)
    have hstr : o.length - 1 - (p + 1) ≤ strlen o (p + 1) :=
      le_strlen (by omega) fun j hj hk => hno j (by omega) (by omega)
    split at hone
    · cases hone
    · split at hone
      · cases hone
      · obtain rfl := Option.some.inj hone
        refine ⟨?_, ?_, toInt_lt _⟩
        · simp only
          omega
        · simp only
          omega

/-- the cut is no longer than the record that was taken -/
theorem take_last_length {o o' : Bytes} {r : Bytes × Bytes} (h : take_last o = some (r, o')) :
    ∃ len : ℤ, (o.length : ℤ) = len + o'.length ∧ len ≤ r.1.length + 1 ∧ len < 2 ^ 31 := by
  obtain ⟨fname, hone, hres⟩ := Option.map_eq_some_iff.1 h
  obtain ⟨rfl, rfl⟩ := Prod.mk.inj hres
  obtain ⟨hrec, hlist, hint⟩ := au_fname_one_len hone
  refine ⟨fname.len, ?_, hrec, hint⟩
  rw [length_ftruncate]
  omega

/-- the bytes of the records that were taken, each with its NUL -/
def taken_size (rs : List (Bytes × Bytes)) : ℕ := (encode (rs.map Prod.fst)).length

@[simp] theorem taken_size_cons (r : Bytes × Bytes) (rs : List (Bytes × Bytes)) :
    taken_size (r :: rs) = r.1.length + 1 + taken_size rs := by
  simp [taken_size]
  omega

theorem Drains.length_le {o : Bytes} {rs : List (Bytes × Bytes)} (h : Drains o rs) :
    o.length ≤ taken_size rs ∧ (o.length = taken_size rs → ∀ r ∈ rs, r.1.length + 1 < 2 ^ 31) := by
  induction h with
  | empty => exact ⟨Nat.zero_le _, fun _ r hr => by simp at hr⟩
  | @take o o' r rs h rest ih =>
    obtain ⟨len, hlen, hle, hlt⟩ := take_last_length h
    rw [taken_size_cons]
    refine ⟨by omega, ?_⟩
    intro heq t ht
    rcases List.mem_cons.1 ht with rfl | ht
    · omega
    · exact ih.2 (by omega) t ht

/-! ## A file of records drains -/

@[simp] theorem list_file_concat (rs : List Record) (r : Record) :
    list_file (rs ++ [r]) = list_file rs ++ r.text ++ [0] := by
  simp [list_file]

/-- the last record of a file: where its fields are, and its length with the NUL -/
def Record.fname (rs : List Record) (r : Record) : Fname where
  atime := (list_file rs).length
  sz := (list_file rs).length + r.atime.length + 1
  name := (list_file rs).length + r.atime.length + 1 + r.blocks.length + 1
  len := r.text.length + 1

/-- the text of the last record, split behind its first and behind its second blank -/
theorem list_file_sz (rs : List Record) (r : Record) :
    list_file (rs ++ [r]) = (list_file rs ++ r.atime ++ [32]) ++ (r.blocks ++ 32 :: r.path) ++ [0] := by
  rw [list_file_concat, Record.text]
  simp

theorem list_file_name (rs : List Record) (r : Record) :
    list_file (rs ++ [r]) = (list_file rs ++ r.atime ++ [32] ++ r.blocks ++ [32]) ++ r.path ++ [0] := by
  rw [list_file_concat, Record.text]
  simp

theorem cstr_record_atime (rs : List Record) (r : Record) :
    cstr (list_file (rs ++ [r])) (r.fname rs).atime = r.text := by
  rw [list_file_concat]
  exact cstr_at _ _ [] r.text_nul

theorem cstr_record_sz (rs : List Record) (r : Record) :
    cstr (list_file (rs ++ [r])) (r.fname rs).sz = r.blocks ++ 32 :: r.path := by
  have hat : (r.fname rs).sz = (list_file rs ++ r.atime ++ [32]).length := by
    simp [Record.fname]
    omega
  rw [list_file_sz, hat]
  exact cstr_at _ _ [] (by simp [r.blocks_ok.1, r.path_ok.1])

theorem cstr_record_name (rs : List Record) (r : Record) :
    cstr (list_file (rs ++ [r])) (r.fname rs).name = r.path := by
  have hat : (r.fname rs).name = (list_file rs ++ r.atime ++ [32] ++ r.blocks ++ [32]).length := by
    simp [Record.fname]
    omega
  rw [list_file_name, hat]
  exact cstr_at _ _ [] r.path_ok.1

/-- the last record is found, as long as its length fits into an int -/
theorem au_fname_one_record (rs : List Record) (r : Record) (hlen : r.text.length + 1 < 2 ^ 31) :
    au_fname_one (list_file (rs ++ [r])) (list_file (rs ++ [r])).length = some (r.fname rs) := by
  have hatime : strchr (list_file (rs ++ [r])) (list_file rs).length 32 =
      some ((list_file rs).length + r.atime.length) := by
    rw [list_file_concat]
    exact strchr_at _ _ _ [] 32 r.text_nul r.atime_ok.2
  have hsz : strchr (list_file (rs ++ [r])) ((list_file rs).length + r.atime.length + 1) 32 =
      some ((list_file rs).length + r.atime.length + 1 + r.blocks.length) := by
    have hat : (list_file rs).length + r.atime.length + 1 = (list_file rs ++ r.atime ++ [32]).length := by
      simp
      omega
    rw [list_file_sz, hat]
    exact strchr_at _ _ _ [] 32 (by simp [r.blocks_ok.1, r.path_ok.1]) r.blocks_ok.2
  have ho : encode (rs.map Record.text ++ [r.text]) = list_file (rs ++ [r]) := by simp [list_file]
  have hrs : encode (rs.map Record.text) = list_file rs := rfl
  have hone := au_fname_one_concat (rs.map Record.text) r.text r.text_nul hlen
  rw [ho, hrs, hatime] at hone
  simp only [hsz] at hone
  exact hone

/-- cutting its length off leaves the other records -/
theorem cut_record (rs : List Record) (r : Record) :
    ftruncate (list_file (rs ++ [r])) (((list_file (rs ++ [r])).length : ℤ) - (r.fname rs).len).toNat = list_file rs := by
  have hn : (((list_file (rs ++ [r])).length : ℤ) - (r.fname rs).len).toNat = (list_file rs).length := by
    simp [Record.fname]
  rw [hn, list_file_concat, ftruncate, List.append_assoc, List.take_left]
  simp

/-- the last record comes off as a whole -/
theorem take_last_record (rs : List Record) (r : Record) (hlen : r.text.length + 1 < 2 ^ 31) :
    take_last (list_file (rs ++ [r])) = some (r.taken, list_file rs) := by
  rw [take_last, au_fname_one_record rs r hlen, Option.map_some, cstr_record_atime, cstr_record_name, cut_record]
  rfl

/-- **A file of records drains, from its end.** -/
theorem drains_records (rs : List Record) (h : ∀ r ∈ rs, r.text.length + 1 < 2 ^ 31) :
    Drains (list_file rs) (rs.reverse.map Record.taken) := by
  induction rs using List.reverseRecOn with
  | nil => exact Drains.empty
  | append_singleton rs r ih =>
    rw [List.reverse_append, List.reverse_singleton, List.singleton_append, List.map_cons]
    exact Drains.take (take_last_record rs r (h r (by simp))) (ih fun t ht => h t (by simp [ht]))

theorem taken_size_records (rs : List Record) : taken_size (rs.reverse.map Record.taken) = (list_file rs).length := by
  rw [taken_size, list_file, List.map_map, List.map_reverse]
  exact length_encode_reverse _

/-- every record is found when it has become the last one, with its fields and its length, and cutting it off leaves the
records before it; so all come off in reverse order, and nothing is left -/
def ReadBack (rs : List Record) : Prop :=
  (∀ ts r, ts ++ [r] <+: rs → ∃ fname,
    au_fname_one (list_file (ts ++ [r])) (list_file (ts ++ [r])).length = some fname ∧
      cstr (list_file (ts ++ [r])) fname.atime = r.text ∧
      cstr (list_file (ts ++ [r])) fname.sz = r.blocks ++ 32 :: r.path ∧
      cstr (list_file (ts ++ [r])) fname.name = r.path ∧ fname.len = r.text.length + 1 ∧
      ftruncate (list_file (ts ++ [r])) (((list_file (ts ++ [r])).length : ℤ) - fname.len).toNat = list_file ts) ∧
  Drains (list_file rs) (rs.reverse.map Record.taken)

/-- **Records are read back as written, exactly if their lengths fit into an int.** -/
theorem read_back_iff (rs : List Record) : ReadBack rs ↔ ∀ r ∈ rs, r.text.length + 1 < 2 ^ 31 := by
  constructor
  · intro ⟨_, hd⟩ r hr
    have hall := hd.length_le.2 (taken_size_records rs).symm
    exact hall r.taken (List.mem_map_of_mem (List.mem_reverse.2 hr))
  · intro h
    refine ⟨fun ts r hts => ⟨r.fname ts, ?_⟩, drains_records rs h⟩
    have hr : r ∈ rs := hts.subset (by simp)
    exact ⟨au_fname_one_record ts r (h r hr), cstr_record_atime ts r, cstr_record_sz ts r, cstr_record_name ts r, rfl,
      cut_record ts r⟩

theorem long_path_ok (n : ℕ) :
    (0 : UInt8) ∉ List.replicate (n + 1) (97 : UInt8) ∧ List.replicate (n + 1) (97 : UInt8) ≠ [] :=
  ⟨by simp [List.mem_replicate], by simp⟩

/-- `1 1 aaa...`, the path being n letters and one more -/
def long_path (n : ℕ) : Record where
  atime := [49]
  blocks := [49]
  path := List.replicate (n + 1) 97
  atime_ok := by decide
  blocks_ok := by decide
  path_ok := long_path_ok n

theorem long_path_text (n : ℕ) : (long_path n).text.length = n + 5 := by
  simp [Record.text, long_path]

/-- a list that drains holds no record that is too long -/
theorem not_drains_long {n : ℕ} (hn : 2 ^ 31 ≤ n) : ¬ Drains (list_file [long_path n]) [(long_path n).taken] := by
  intro hd
  have hall := hd.length_le.2 (taken_size_records [long_path n]).symm
  have hlen : (long_path n).text.length + 1 < 2 ^ 31 := hall (long_path n).taken (by simp)
  rw [long_path_text] at hlen
  omega

/-- the length of one record of this size is cut to an int, and becomes negative -/
theorem long_record_not_read_back : ¬ ReadBack [long_path (2 ^ 31)] := fun h => not_drains_long le_rfl h.2

/-! ## After the merge -/

/-- what a move_failed that returns 0 after a complete write did -/
theorem move_failed_success {failed : Bytes} {sys : MoveSys} {ops : List FileOp} (hw : sys.write = .full)
    (h : move_failed failed sys = (some 0, ops)) :
    (failed = [] ∧ ops = []) ∨
      failed ≠ [] ∧ ∃ rev : Bytes, rev.length = failed.length + 1 ∧ ops = [.list_append rev, .failed_truncate 0] := by
  unfold move_failed at h
  by_cases hfstat : (!sys.fstat) = true
  · rw [if_pos hfstat] at h
    simp at h
  by_cases hempty : failed = []
  · rw [if_neg hfstat, if_pos hempty] at h
    exact Or.inl ⟨hempty, (Prod.mk.inj h).2.symm⟩
  by_cases hmem : (!sys.mmap || !sys.malloc) = true
  · rw [if_neg hfstat, if_neg hempty, if_pos hmem] at h
    simp at h
  rw [if_neg hfstat, if_neg hempty, if_neg hmem] at h
  simp only at h
  by_cases hrev : (rev_loop failed failed.length (toInt (failed.length - 1)) [0]).length ≠ failed.length + 1
  · rw [if_pos hrev] at h
    simp at h
  have hcount : sys.write.count (failed.length + 1) = failed.length + 1 := by
    rw [hw]
    simp [WriteRes.count]
  rw [if_neg hrev, if_pos hcount] at h
  by_cases hftr : sys.ftr = true
  · rw [if_pos hftr] at h
    exact Or.inr ⟨hempty, _, not_not.1 hrev, (Prod.mk.inj h).2.symm⟩
  · rw [if_neg hftr] at h
    simp at h

/-- the failed-list is empty, and the list drains: first the failed names in their order, then the old ones from the
end -/
def Merged (ls fs : List Record) (files : Files) : Prop :=
  files.failed = [] ∧ Drains files.list ((fs ++ ls.reverse).map Record.taken)

theorem taken_size_merged (ls fs : List Record) :
    taken_size ((fs ++ ls.reverse).map Record.taken) = (list_file fs).length + (list_file ls).length := by
  calc taken_size ((fs ++ ls.reverse).map Record.taken)
      = taken_size ((ls ++ fs.reverse).reverse.map Record.taken) := by simp
    _ = (list_file (ls ++ fs.reverse)).length := taken_size_records _
    _ = (list_file ls).length + (encode (fs.map Record.text).reverse).length := by simp [list_file]
    _ = (list_file fs).length + (list_file ls).length := by
        rw [length_encode_reverse]
        exact Nat.add_comm _ _

/-- **The merged list drains only if there was nothing to merge.** For a list of records ls and a failed-list of records
fs, when move_failed succeeds with a complete write: the failed-list is empty and the list drains in the intended order
if and only if the failed-list had no record, and no record of the list is too long for fname.len. -/
theorem merged_drains_iff (ls fs : List Record) (gone : List Bytes) (sys : MoveSys) (ops : List FileOp)
    (hw : sys.write = .full) (hok : move_failed (list_file fs) sys = (some 0, ops)) :
    Merged ls fs (apply_all ⟨list_file ls, list_file fs, gone⟩ ops) ↔
      fs = [] ∧ ∀ r ∈ ls, r.text.length + 1 < 2 ^ 31 := by
  have hsize := taken_size_merged ls fs
  rcases move_failed_success hw hok with ⟨hempty, rfl⟩ | ⟨hne, rev, hrev, rfl⟩
  · obtain rfl : fs = [] := by
      rcases fs with _ | ⟨f, fs⟩
      · rfl
      · simp [list_file] at hempty
    constructor
    · intro ⟨_, hd⟩
      refine ⟨rfl, ?_⟩
      intro r hr
      have hlen : (list_file ls).length = taken_size (([] ++ ls.reverse).map Record.taken) := by
        rw [hsize]
        simp [list_file]
      exact hd.length_le.2 hlen r.taken (List.mem_map_of_mem (by simpa using hr))
    · intro ⟨_, hr⟩
      exact ⟨hempty, drains_records ls hr⟩
  · -- the list has grown by one byte more than the failed-list held
    constructor
    · intro ⟨_, hd⟩
      have hlen : (list_file ls ++ rev).length ≤ taken_size ((fs ++ ls.reverse).map Record.taken) := hd.length_le.1
      rw [List.length_append] at hlen
      omega
    · intro ⟨hnil, _⟩
      rw [hnil] at hne
      exact absurd rfl hne

/-- `1 1 <c>` -/
def one_letter (c : UInt8) (h : c ≠ 0) : Record where
  atime := [49]
  blocks := [49]
  path := [c]
  atime_ok := by decide
  blocks_ok := by decide
  path_ok := ⟨by simpa using h.symm, by simp⟩

def quiet_move : MoveSys := ⟨true, true, true, .full, true, [], 0⟩

/-- `1 1 a` and `1 1 c`, with nothing to merge -/
theorem merged_drains_nothing :
    Merged [one_letter 97 (by decide), one_letter 99 (by decide)] [] (apply_all
      ⟨list_file [one_letter 97 (by decide), one_letter 99 (by decide)], list_file [], []⟩ []) := by
  refine (merged_drains_iff [one_letter 97 (by decide), one_letter 99 (by decide)] [] [] quiet_move [] rfl
    (by decide)).2 ⟨rfl, fun r hr => ?_⟩
  rcases List.mem_cons.1 hr with rfl | hr
  · decide
  · rw [List.mem_singleton.1 hr]
    decide

/-- `1 1 b` merged behind `1 1 a`: the list becomes `1 1 a`, an empty record and `1 1 b` -/
theorem merged_list_stuck :
    ∃ ops, move_failed (list_file [one_letter 98 (by decide)]) quiet_move = (some 0, ops) ∧
      ¬ Merged [one_letter 97 (by decide)] [one_letter 98 (by decide)]
        (apply_all ⟨list_file [one_letter 97 (by decide)], list_file [one_letter 98 (by decide)], []⟩ ops) := by
  refine ⟨[.list_append ([0] ++ list_file [one_letter 98 (by decide)]), .failed_truncate 0], by decide, ?_⟩
  intro ⟨_, hd⟩
  exact absurd hd.length_le.1 (by decide)

end AufsUtil.Fhsm
