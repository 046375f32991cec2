/-
The lister (`fhsm/aufhsm-list`), and the order in which its list is consumed.

find(1) prints one record for every file: `<atime> <blocks> <path>` and a NUL. Two passes of sort(1) follow. The first
is by the number behind the first field, ascending (`-nz -k2`); the second by the number at the front, descending and
stable (`-rsnz`). The daemon takes the names off the end.

- `numkey_text`: sort -n reads the atime and the blocks as find(1) printed them.
- `coldest_first_iff`: every file is delivered once, the one with the oldest atime first, and among those with one atime
  the largest first, exactly if no record is too long for fname.len.

What is taken of the two programs: find prints every file once, in any order; sort rearranges the records by their key,
and keeps the order of equal keys with -s (`Qsort`, `StableSort`), without it any order. The numbers are those of the C
locale. Which files find selects (-type, -links, -name) is left to the list of files.
-/
import Mathlib.Tactic
import AufsUtil.Lib.SortSearch
import AufsUtil.Fhsm.Drain

namespace AufsUtil.Fhsm.Lister

open AufsUtil.CStr AufsUtil.SortSearch

/-! ## Numbers -/

/-- isdigit(3) -/
def is_digit (c : UInt8) : Bool := 48 ≤ c && c ≤ 57

/-- what separates fields for sort(1): tab, newline, blank -/
def is_blank (c : UInt8) : Bool := c == 9 || c == 10 || c == 32

def digit (d : ℕ) : UInt8 := UInt8.ofNat (48 + d)

/-- printf "%d" -/
def decimal (n : ℕ) : Bytes := if n = 0 then [48] else ((Nat.digits 10 n).map digit).reverse

def digits_value (s : Bytes) : ℕ := s.foldl (fun n c => 10 * n + (c.toNat - 48)) 0

/-- the fraction, if there is a point -/
def frac_value (s : Bytes) : ℚ :=
  let frac := if s.head? = some 46 then s.tail.takeWhile is_digit else []
  digits_value frac / 10 ^ frac.length

/-- the number sort -n sees: blanks, a sign, digits, a point and digits; whatever follows is not looked at -/
def numkey (s : Bytes) : ℚ :=
  let s := s.dropWhile is_blank
  let neg : Bool := s.head? == some 45
  let s := if neg then s.tail else s
  let v := digits_value (s.takeWhile is_digit) + frac_value (s.dropWhile is_digit)
  if neg then -v else v

/-- a time as find(1) prints it -/
structure Time where
  neg : Bool
  int : ℕ
  frac : List (Fin 10)
deriving DecidableEq, Repr

def Time.text (t : Time) : Bytes :=
  (if t.neg then [45] else []) ++ decimal t.int ++
    (if t.frac = [] then [] else 46 :: t.frac.map fun d : Fin 10 => digit d.val)

def Time.value (t : Time) : ℚ :=
  let v : ℚ := t.int + (t.frac.foldl (fun n (d : Fin 10) => 10 * n + d.val) 0 : ℕ) / 10 ^ t.frac.length
  if t.neg then -v else v

theorem digit_toNat {d : ℕ} (h : d < 10) : (digit d).toNat = 48 + d := by
  rw [digit, UInt8.toNat_ofNat']
  omega

theorem is_digit_digit {d : ℕ} (h : d < 10) : is_digit (digit d) = true := by
  interval_cases d <;> rfl

theorem decimal_digits (n : ℕ) : ∀ c ∈ decimal n, is_digit c = true := by
  intro c hc
  unfold decimal at hc
  by_cases h0 : n = 0
  · rw [if_pos h0, List.mem_singleton] at hc
    rw [hc]
    rfl
  · rw [if_neg h0, List.mem_reverse, List.mem_map] at hc
    obtain ⟨d, hd, rfl⟩ := hc
    exact is_digit_digit (Nat.digits_lt_base (by decide) hd)

theorem decimal_ne_nil (n : ℕ) : decimal n ≠ [] := by
  unfold decimal
  by_cases h0 : n = 0
  · simp [h0]
  · rw [if_neg h0, Ne, List.reverse_eq_nil_iff, List.map_eq_nil_iff]
    exact Nat.digits_ne_nil_iff_ne_zero.2 h0

/-- digits are read as they were printed -/
theorem digits_value_decimal (n : ℕ) : digits_value (decimal n) = n := by
  unfold digits_value decimal
  by_cases h0 : n = 0
  · simp [h0]
  rw [if_neg h0, List.foldl_reverse, List.foldr_map]
  have hdigits : ∀ ds : List ℕ, (∀ d ∈ ds, d < 10) →
      ds.foldr (fun d n => 10 * n + ((digit d).toNat - 48)) 0 = Nat.ofDigits 10 ds := by
    intro ds hds
    induction ds with
    | nil => rfl
    | cons d ds ih =>
      rw [List.foldr_cons, ih fun e he => hds e (List.mem_cons_of_mem d he), digit_toNat (hds d List.mem_cons_self),
        Nat.ofDigits_cons]
      omega
  rw [hdigits _ fun d hd => Nat.digits_lt_base (by decide) hd, Nat.ofDigits_digits]

theorem digits_value_frac (ds : List (Fin 10)) :
    digits_value (ds.map fun d : Fin 10 => digit d.val) = ds.foldl (fun n (d : Fin 10) => 10 * n + d.val) 0 := by
  unfold digits_value
  rw [List.foldl_map]
  refine congrArg (fun f => List.foldl f 0 ds) ?_
  funext n d
  rw [digit_toNat d.isLt, Nat.add_sub_cancel_left]

theorem takeWhile_digits {s r : Bytes} (hs : ∀ c ∈ s, is_digit c = true)
    (hr : ∀ c, r.head? = some c → is_digit c = false) :
    (s ++ r).takeWhile is_digit = s ∧ (s ++ r).dropWhile is_digit = r := by
  rw [List.takeWhile_append_of_pos hs, List.dropWhile_append_of_pos hs]
  rcases r with _ | ⟨c, r⟩
  · simp
  · have hc := hr c rfl
    simp [hc]

/-- a digit is no blank and no sign -/
theorem digit_class {c : UInt8} (h : is_digit c = true) : is_blank c = false ∧ c ≠ 45 ∧ c ≠ 0 ∧ c ≠ 32 := by
  simp only [is_digit, Bool.and_eq_true, decide_eq_true_eq] at h
  have hlow : (48 : UInt8).toNat ≤ c.toNat := UInt8.le_iff_toNat_le.1 h.1
  have hne : ∀ d : UInt8, d.toNat < 48 → c ≠ d := by
    rintro d hd rfl
    exact absurd hlow (not_le.2 hd)
  refine ⟨?_, hne 45 (by decide), hne 0 (by decide), hne 32 (by decide)⟩
  simp [is_blank, hne 9 (by decide), hne 10 (by decide), hne 32 (by decide)]

/-- a sign, digits, and what follows them -/
theorem numkey_digits (neg : Bool) {int rest : Bytes} (hint : ∀ c ∈ int, is_digit c = true) (hne : int ≠ [])
    (hrest : ∀ c, rest.head? = some c → is_digit c = false) :
    numkey ((if neg then [45] else []) ++ (int ++ rest)) =
      if neg then -(digits_value int + frac_value rest) else digits_value int + frac_value rest := by
  obtain ⟨htake, hdrop⟩ := takeWhile_digits hint hrest
  obtain ⟨d, ds, rfl⟩ := List.exists_cons_of_ne_nil hne
  obtain ⟨hblank, hsign, -, -⟩ := digit_class (hint d List.mem_cons_self)
  unfold numkey
  cases neg with
  | true =>
    have hfront : (45 :: (d :: ds ++ rest)).dropWhile is_blank = 45 :: (d :: ds ++ rest) := rfl
    simp only [if_true, List.singleton_append, hfront, List.head?_cons, BEq.rfl, List.tail_cons, htake, hdrop]
  | false =>
    have hfront : (d :: ds ++ rest).dropWhile is_blank = d :: ds ++ rest := by
      rw [List.cons_append, List.dropWhile_cons, hblank]
      rfl
    have hno : ((d :: ds ++ rest).head? == some 45) = false := by simp [hsign]
    simp only [Bool.false_eq_true, if_false, List.nil_append, hfront, hno, htake, hdrop]

/-- **What find(1) prints, sort -n reads.** -/
theorem numkey_text (t : Time) (rest : Bytes) : numkey (t.text ++ 32 :: rest) = t.value := by
  have hsplit : t.text ++ 32 :: rest = (if t.neg then [45] else []) ++ (decimal t.int ++
      ((if t.frac = [] then [] else 46 :: t.frac.map fun d : Fin 10 => digit d.val) ++ 32 :: rest)) := by
    simp [Time.text]
  have hdigits : ∀ c ∈ t.frac.map (fun d : Fin 10 => digit d.val), is_digit c = true := by
    intro c hc
    obtain ⟨d, -, rfl⟩ := List.mem_map.1 hc
    exact is_digit_digit d.isLt
  rw [hsplit, numkey_digits t.neg (decimal_digits t.int) (decimal_ne_nil t.int), digits_value_decimal]
  · have hfrac : frac_value ((if t.frac = [] then [] else 46 :: t.frac.map fun d : Fin 10 => digit d.val) ++ 32 :: rest) =
        (t.frac.foldl (fun n (d : Fin 10) => 10 * n + d.val) 0 : ℕ) / 10 ^ t.frac.length := by
      unfold frac_value
      by_cases hnil : t.frac = []
      · simp [hnil, digits_value]
      · obtain ⟨htake, -⟩ := takeWhile_digits (r := 32 :: rest) hdigits fun c hc => by
          obtain rfl := Option.some.inj hc
          rfl
        simp only [if_neg hnil, List.cons_append, List.head?_cons, if_true, List.tail_cons, htake, digits_value_frac,
          List.length_map]
    rw [hfrac]
    rfl
  · intro c hc
    by_cases hnil : t.frac = []
    · rw [if_pos hnil] at hc
      obtain rfl := Option.some.inj hc
      rfl
    · rw [if_neg hnil] at hc
      obtain rfl := Option.some.inj hc
      rfl

/-! ## Files and their records -/

/-- a file of the branch; -printf '%A@ %b %P\0' -/
structure File where
  atime : Time
  blocks : ℕ
  path : Bytes
  path_ok : (0 : UInt8) ∉ path ∧ path ≠ []

/-- no NUL and nothing that separates fields -/
theorem time_text_plain (t : Time) : ∀ c ∈ t.text, c ≠ 0 ∧ is_blank c = false := by
  intro c hc
  have hclass : c = 45 ∨ c = 46 ∨ is_digit c = true := by
    unfold Time.text at hc
    rcases List.mem_append.1 hc with hc | hc
    · rcases List.mem_append.1 hc with hc | hc
      · by_cases hneg : t.neg = true
        · rw [if_pos hneg, List.mem_singleton] at hc
          exact .inl hc
        · rw [if_neg hneg] at hc
          exact absurd hc List.not_mem_nil
      · exact .inr (.inr (decimal_digits _ c hc))
    · by_cases hnil : t.frac = []
      · rw [if_pos hnil] at hc
        exact absurd hc List.not_mem_nil
      · rw [if_neg hnil, List.mem_cons, List.mem_map] at hc
        rcases hc with rfl | ⟨d, -, rfl⟩
        · exact .inr (.inl rfl)
        · exact .inr (.inr (is_digit_digit d.isLt))
  rcases hclass with rfl | rfl | hdigit
  · exact ⟨by decide, rfl⟩
  · exact ⟨by decide, rfl⟩
  · exact ⟨(digit_class hdigit).2.2.1, (digit_class hdigit).1⟩

def File.record (f : File) : Record where
  atime := f.atime.text
  blocks := decimal f.blocks
  path := f.path
  atime_ok := ⟨fun h => (time_text_plain f.atime 0 h).1 rfl, fun h => absurd (time_text_plain f.atime 32 h).2 nofun⟩
  blocks_ok := ⟨fun h => (digit_class (decimal_digits _ 0 h)).2.2.1 rfl,
    fun h => (digit_class (decimal_digits _ 32 h)).2.2.2 rfl⟩
  path_ok := f.path_ok

/-- what find(1) writes -/
def find_output (files : List File) : Bytes := list_file (files.map File.record)

/-- the key of -k2: what follows the first field -/
def field2 (r : Bytes) : Bytes := (r.dropWhile is_blank).dropWhile fun c => !is_blank c

theorem numkey_record (f : File) : numkey f.record.text = f.atime.value := numkey_text f.atime _

theorem field2_record (f : File) : numkey (field2 f.record.text) = f.blocks := by
  have hplain : ∀ c ∈ f.atime.text, (!is_blank c) = true := by
    intro c hc
    rw [(time_text_plain f.atime c hc).2]
    rfl
  have hfront : f.record.text.dropWhile is_blank = f.record.text := by
    have hatime : f.record.atime = f.atime.text := rfl
    obtain ⟨c, s, htext⟩ : ∃ c s, f.atime.text = c :: s :=
      List.exists_cons_of_ne_nil (by simp [Time.text, decimal_ne_nil])
    have hc : is_blank c = false := (time_text_plain f.atime c (htext ▸ List.mem_cons_self)).2
    rw [Record.text, hatime, htext, List.cons_append, List.dropWhile_cons, hc]
    rfl
  have hfield : field2 f.record.text = 32 :: (decimal f.blocks ++ 32 :: f.path) := by
    rw [field2, hfront, Record.text]
    exact List.dropWhile_append_of_pos hplain
  have hskip : numkey (32 :: (decimal f.blocks ++ 32 :: f.path)) = numkey (decimal f.blocks ++ 32 :: f.path) := rfl
  have hblank : ∀ c, (32 :: f.path).head? = some c → is_digit c = false := by
    intro c hc
    obtain rfl := Option.some.inj hc
    rfl
  have hread := numkey_digits false (decimal_digits f.blocks) (decimal_ne_nil f.blocks) hblank
  have hint : frac_value (32 :: f.path) = 0 := by simp [frac_value, digits_value]
  rw [digits_value_decimal, hint, add_zero] at hread
  rw [hfield, hskip]
  exact hread

/-! ## Sorting -/

/-- the order of -r -/
def descending (a b : ℚ) : Ordering := compare b a

instance : Std.TransCmp descending where
  eq_swap {a b} := by
    have hswap : compare b a = (compare a b).swap := Std.OrientedCmp.eq_swap
    exact hswap
  isLE_trans {a b c} hab hbc := by
    have hba : (compare b a).isLE = true := hab
    have hcb : (compare c b).isLE = true := hbc
    have hca : (compare c a).isLE = true := Std.TransCmp.isLE_trans hcb hba
    exact hca

section Passes

variable (qs : Qsort (compare : ℚ → ℚ → Ordering) fun r => numkey (field2 r)) (ss : StableSort descending numkey)

/-- sort -nz -k2 -/
def sort_nz_k2 (f : Bytes) : Bytes := encode (qs.sort (records f))

/-- sort -rsnz -/
def sort_rsnz (f : Bytes) : Bytes := encode (ss.sort (records f))

def aufhsm_list (found : Bytes) : Bytes := sort_rsnz ss (sort_nz_k2 qs found)

variable (files : List File)

/-- the files as sort(1) leaves them: every one is there, the latest atime first, and among those with one atime the
smallest first -/
theorem listed : ∃ order : List File, order.Perm files ∧
    aufhsm_list qs ss (find_output files) = list_file (order.map File.record) ∧
    order.Pairwise fun a b => b.atime.value ≤ a.atime.value ∧ (a.atime.value = b.atime.value → a.blocks ≤ b.blocks) := by
  set texts := files.map fun f => f.record.text with htexts
  have hnul : ∀ l : List Bytes, l.Perm texts → ∀ r ∈ l, (0 : UInt8) ∉ r := by
    intro l hl r hr
    obtain ⟨f, -, rfl⟩ := List.mem_map.1 (hl.subset hr)
    exact f.record.text_nul
  have hfound : records (find_output files) = texts := by
    have hout : find_output files = encode texts := by
      rw [find_output, list_file, List.map_map]
      rfl
    rw [hout, records_encode _ (hnul texts (.refl texts))]
  have hperm : (ss.sort (qs.sort texts)).Perm texts := (ss.perm _).trans (qs.perm texts)
  have hlist : aufhsm_list qs ss (find_output files) = encode (ss.sort (qs.sort texts)) := by
    rw [aufhsm_list, sort_rsnz, sort_nz_k2, hfound, records_encode _ (hnul _ (qs.perm texts))]
  obtain ⟨order, horder, hmap⟩ := exists_map_of_perm hperm
  refine ⟨order, horder, ?_, ?_⟩
  · rw [hlist, ← hmap, list_file, List.map_map]
    rfl
  · have hlex := ss.lex (qs.sorted texts)
    rw [← hmap, List.pairwise_map] at hlex
    refine hlex.imp fun {a b} h => ?_
    obtain ⟨hle, htie⟩ := h
    have hle' : (compare (numkey b.record.text) (numkey a.record.text)).isLE = true := hle
    have hatime := compare_le_iff_le.1 (Ordering.isLE_iff_ne_gt.1 hle')
    rw [numkey_record, numkey_record] at hatime
    refine ⟨hatime, fun heq => ?_⟩
    have heq' : descending (numkey a.record.text) (numkey b.record.text) = .eq := by
      rw [numkey_record, numkey_record, heq, descending]
      exact Std.ReflCmp.compare_self
    have hblocks : (compare (numkey (field2 a.record.text)) (numkey (field2 b.record.text))).isLE = true := htie heq'
    have hle₂ := compare_le_iff_le.1 (Ordering.isLE_iff_ne_gt.1 hblocks)
    rw [field2_record, field2_record] at hle₂
    exact_mod_cast hle₂

/-- the daemon gets every file once, the oldest atime first, and among those with one atime the largest first -/
def ColdestFirst : Prop :=
  ∃ order : List File, order.Perm files ∧
    (order.Pairwise fun a b =>
      a.atime.value ≤ b.atime.value ∧ (a.atime.value = b.atime.value → b.blocks ≤ a.blocks)) ∧
    Drains (aufhsm_list qs ss (find_output files)) (order.map fun f => f.record.taken)

/-- rearranged records are as long -/
theorem length_list_file_perm {rs ts : List Record} (h : rs.Perm ts) :
    (list_file rs).length = (list_file ts).length := by
  unfold list_file encode
  exact ((h.map Record.text).map (· ++ [0])).flatten.length_eq

/-- what comes out is as long as the list, so no record was cut short -/
theorem ColdestFirst.short (h : ColdestFirst qs ss files) : ∀ f ∈ files, f.record.text.length + 1 < 2 ^ 31 := by
  obtain ⟨listing, hperm, hlist, -⟩ := listed qs ss files
  obtain ⟨order, horder, -, hdrains⟩ := h
  rw [hlist] at hdrains
  intro f hf
  have hrecords : (order.reverse.map File.record).Perm (listing.map File.record) :=
    ((List.reverse_perm order).trans (horder.trans hperm.symm)).map _
  have hsize : (list_file (listing.map File.record)).length = taken_size (order.map fun f => f.record.taken) := by
    calc (list_file (listing.map File.record)).length
        = (list_file (order.reverse.map File.record)).length := (length_list_file_perm hrecords).symm
      _ = taken_size ((order.reverse.map File.record).reverse.map Record.taken) := (taken_size_records _).symm
      _ = taken_size (order.map fun f => f.record.taken) := by simp [List.map_reverse, Function.comp_def]
  exact hdrains.length_le.2 hsize f.record.taken (List.mem_map_of_mem (horder.mem_iff.2 hf))

/-- **Files are taken coldest first, largest first among equals, exactly if no record is too long for an int.** For
every list of files that find(1) may print, and every outcome of the two sorts. -/
theorem coldest_first_iff : ColdestFirst qs ss files ↔ ∀ f ∈ files, f.record.text.length + 1 < 2 ^ 31 := by
  refine ⟨ColdestFirst.short qs ss files, fun hshort => ?_⟩
  obtain ⟨listing, hperm, hlist, hsorted⟩ := listed qs ss files
  refine ⟨listing.reverse, (List.reverse_perm listing).trans hperm, ?_, ?_⟩
  · rw [List.pairwise_reverse]
    exact hsorted.imp fun {a b} h => ⟨h.1, fun heq => h.2 heq.symm⟩
  · have hdrains := drains_records (listing.map File.record) fun r hr => by
      obtain ⟨f, hf, rfl⟩ := List.mem_map.1 hr
      exact hshort f (hperm.mem_iff.1 hf)
    rw [← List.map_reverse, List.map_map] at hdrains
    rw [hlist]
    exact hdrains

end Passes

/-- a path of n letters and one more -/
def long_file (n : ℕ) : File := ⟨⟨false, 1, []⟩, 1, List.replicate (n + 1) 97, long_path_ok n⟩

theorem long_file_text (n : ℕ) : n ≤ (long_file n).record.text.length := by
  simp [Record.text, File.record, long_file]
  omega

/-- the record of such a file is too long: its length is cut to an int -/
theorem long_file_not_delivered : ¬ ColdestFirst (Qsort.insertion compare fun r => numkey (field2 r))
    (StableSort.merge descending numkey) [long_file (2 ^ 31)] := by
  intro h
  have hshort := h.short _ _ _ (long_file (2 ^ 31)) List.mem_cons_self
  exact absurd (long_file_text (2 ^ 31)) (by omega)

end AufsUtil.Fhsm.Lister
