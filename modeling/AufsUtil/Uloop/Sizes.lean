/-
The sizes of the cache and of the bitmap of uloop (`sample/uloop/libuloop.c`, ulo_init), and the pages that the driver
computes from them.

The cache is the image, rounded up to whole pages. For the bitmap, the number of these pages is divided by CHAR_BIT and
then rounded up; what the first division drops is lost, if exactly whole pages of bits are left.

- `round_up_eq`, `bitmap_size_eq`: the sizes.
- `pages_suffice`: when the pages of the bitmap have a bit for every page of the cache.
- `bitmap_covers_iff`: when every page of the cache has its bit inside of the file, and which pages outside of it
  ulo_bmp_pindex refuses.

unsigned long long wraps around. How creating the two files and setting up the loop device turn out are inputs.
-/
import Mathlib.Tactic
import AufsUtil.Uloop.Driver

namespace AufsUtil.Uloop

open AufsUtil.CStr

/-! ## ulo_init -/

def CHAR_BIT : ℕ := 8

/-- up to whole pages -/
def round_up (n pagesize : ℕ) : ℕ :=
  let mod := n % pagesize
  if mod ≠ 0 then (n + (pagesize - mod)) % 2 ^ 64 else n

def bitmap_size (cache_size pagesize : ℕ) : ℕ :=
  let sz := cache_size / pagesize / CHAR_BIT
  if sz < pagesize then pagesize else round_up sz pagesize

/-- what ulo_create_size returns for the cache and for the bitmap, and what ulo_init_loop returns -/
structure InitSys where
  cache : ℤ
  bitmap : ℤ
  loop : ℤ

/-- what ulo_init returns, and the sizes with which it has created the files -/
structure Created where
  err : ℤ
  cache : Option ℕ
  bitmap : Option ℕ
deriving DecidableEq, Repr

def ulo_init (size pagesize : ℕ) (sys : InitSys) : Created :=
  let cache_size := round_up size pagesize
  if cache_size % pagesize ≠ 0 then ⟨EINVAL, none, none⟩
  else if sys.cache < 0 then ⟨sys.cache, some cache_size, none⟩
  else
    let sz := bitmap_size cache_size pagesize
    if sz % pagesize ≠ 0 then ⟨EINVAL, some cache_size, none⟩
    else if sys.bitmap < 0 then ⟨sys.bitmap, some cache_size, some sz⟩
    else ⟨sys.loop, some cache_size, some sz⟩

/-- the files that are created have the sizes that were computed -/
theorem ulo_init_sizes {size P : ℕ} {sys : InitSys} {c b : ℕ} (hc : (ulo_init size P sys).cache = some c)
    (hb : (ulo_init size P sys).bitmap = some b) : c = round_up size P ∧ b = bitmap_size c P := by
  dsimp only [ulo_init] at hc hb
  split_ifs at hc hb with hmod hcache hsz hbitmap
  · exact ⟨(Option.some.inj hc).symm, by rw [← Option.some.inj hc, ← Option.some.inj hb]⟩
  · exact ⟨(Option.some.inj hc).symm, by rw [← Option.some.inj hc, ← Option.some.inj hb]⟩

/-! ## Whole pages -/

/-- the pages that it takes to hold n -/
def whole_pages (n P : ℕ) : ℕ := (n + P - 1) / P

theorem whole_pages_of_mod_eq {n P : ℕ} (hP : 0 < P) (h : n % P = 0) : whole_pages n P = n / P := by
  have hdiv := Nat.div_add_mod' n P
  refine Nat.div_eq_of_lt_le ?_ ?_
  · omega
  · rw [Nat.succ_mul]
    omega

theorem whole_pages_of_mod_ne {n P : ℕ} (hP : 0 < P) (h : n % P ≠ 0) : whole_pages n P = n / P + 1 := by
  have hdiv := Nat.div_add_mod' n P
  have hlt := Nat.mod_lt n hP
  refine Nat.div_eq_of_lt_le ?_ ?_
  · rw [Nat.succ_mul]
    omega
  · rw [Nat.succ_mul, Nat.succ_mul]
    omega

/-- **Rounding up** is by whole pages, until it wraps around. -/
theorem round_up_eq {n P : ℕ} (hP : 0 < P) (hn : n < 2 ^ 64) : round_up n P = whole_pages n P * P % 2 ^ 64 := by
  have hdiv := Nat.div_add_mod' n P
  have hlt := Nat.mod_lt n hP
  dsimp only [round_up]
  split_ifs with hmod
  · rw [whole_pages_of_mod_ne hP hmod, Nat.succ_mul]
    congr 1
    omega
  · rw [whole_pages_of_mod_eq hP (not_not.1 hmod), Nat.mod_eq_of_lt (by omega)]
    omega

theorem whole_pages_mul_lt {n P : ℕ} (hP : 0 < P) : whole_pages n P * P < n + P := by
  have hle := Nat.div_mul_le_self (n + P - 1) P
  rw [whole_pages]
  omega

/-- the pages of the cache: those of the image, or none at all -/
theorem cache_pages {size P : ℕ} (hP : 0 < P) (hP31 : P < 2 ^ 31) (hsize : size < 2 ^ 64) :
    round_up size P / P = if whole_pages size P * P < 2 ^ 64 then whole_pages size P else 0 := by
  have hlt := whole_pages_mul_lt (n := size) hP
  rw [round_up_eq hP hsize]
  split_ifs with hfit
  · rw [Nat.mod_eq_of_lt hfit, Nat.mul_div_cancel _ hP]
  · exact Nat.div_eq_of_lt (by omega)

/-- the pages of the bitmap: at least one -/
theorem bitmap_size_eq {c P : ℕ} (hP : 0 < P) (hP31 : P < 2 ^ 31) (hc : c < 2 ^ 64) :
    bitmap_size c P = max 1 (whole_pages (c / P / CHAR_BIT) P) * P := by
  have hle : c / P ≤ c := Nat.div_le_self c P
  have hq : c / P / CHAR_BIT ≤ c / 8 := Nat.div_le_div_right hle
  dsimp only [bitmap_size]
  split_ifs with hsmall
  · have hone : whole_pages (c / P / CHAR_BIT) P ≤ 1 := by
      refine Nat.le_of_lt_succ (Nat.div_lt_of_lt_mul ?_)
      omega
    rw [max_eq_left hone, Nat.one_mul]
  · have hpos : 1 ≤ whole_pages (c / P / CHAR_BIT) P := Nat.div_pos (by omega) hP
    have hlt := whole_pages_mul_lt (n := c / P / CHAR_BIT) hP
    rw [max_eq_right hpos, round_up_eq hP (by omega), Nat.mod_eq_of_lt (by omega)]

/-- what is left behind whole pages of bits takes one more, unless the division by CHAR_BIT drops it -/
theorem whole_pages_bits (n : ℕ) {P : ℕ} (hP : 0 < P) :
    whole_pages (n / CHAR_BIT) P = n / bmp_page_bytes P + if n % bmp_page_bytes P < CHAR_BIT then 0 else 1 := by
  have hpage : bmp_page_bytes P = 8 * P := Nat.mul_comm P 8
  have hdiv := Nat.div_add_mod' n (bmp_page_bytes P)
  have hlt : n % bmp_page_bytes P < 8 * P := by
    rw [← hpage]
    exact Nat.mod_lt n (by omega)
  have hmul : n / bmp_page_bytes P * bmp_page_bytes P = 8 * (n / bmp_page_bytes P * P) := by
    rw [hpage]
    ring
  set k := n / bmp_page_bytes P with hk
  set r := n % bmp_page_bytes P with hr
  have hq : n / CHAR_BIT = k * P + r / 8 := by
    rw [CHAR_BIT]
    omega
  have hqmod : n / CHAR_BIT % P = r / 8 := by
    rw [hq, Nat.mul_add_mod', Nat.mod_eq_of_lt (by omega)]
  have hqdiv : n / CHAR_BIT / P = k := by
    rw [hq, Nat.mul_comm, Nat.mul_add_div hP, Nat.div_eq_of_lt (by omega), Nat.add_zero]
  rw [CHAR_BIT] at hqmod hqdiv ⊢
  split_ifs with hrest
  · rw [whole_pages_of_mod_eq hP (by omega), hqdiv, Nat.add_zero]
  · rw [whole_pages_of_mod_ne hP (by omega), hqdiv]

/-- **A bit for every page**: unless whole pages of bits and less than CHAR_BIT more are needed. -/
theorem pages_suffice {n P : ℕ} (hP : 0 < P) :
    n ≤ max 1 (whole_pages (n / CHAR_BIT) P) * bmp_page_bytes P ↔
      n < bmp_page_bytes P ∨ n % bmp_page_bytes P = 0 ∨ CHAR_BIT ≤ n % bmp_page_bytes P := by
  have hpage : 0 < bmp_page_bytes P := Nat.mul_pos hP (by decide)
  have hdiv := Nat.div_add_mod' n (bmp_page_bytes P)
  have hlt := Nat.mod_lt n hpage
  rw [whole_pages_bits n hP]
  split_ifs with hrest
  · rcases Nat.eq_zero_or_pos (n / bmp_page_bytes P) with h0 | hpos
    · rw [h0, Nat.zero_mul] at hdiv
      rw [h0, max_eq_left (by decide), Nat.one_mul]
      omega
    · have hle : bmp_page_bytes P ≤ n / bmp_page_bytes P * bmp_page_bytes P := Nat.le_mul_of_pos_left _ hpos
      rw [Nat.add_zero, max_eq_right hpos]
      omega
  · rw [max_eq_right (Nat.le_add_left 1 _), Nat.succ_mul]
    omega

/-! ## The bits of uloop_xfer -/

theorem pages_inside_iff {n B P : ℕ} (hP : 0 < P) :
    (∀ loff < n, pindex_of P loff < B) ↔ n ≤ B * bmp_page_bytes P := by
  have hpage : 0 < bmp_page_bytes P := Nat.mul_pos hP (by decide)
  have hlt : ∀ loff, pindex_of P loff < B ↔ loff < B * bmp_page_bytes P := fun loff => Nat.div_lt_iff_lt_mul hpage
  constructor
  · intro h
    by_contra hn
    have hend := (hlt _).1 (h _ (not_le.1 hn))
    exact lt_irrefl _ hend
  · intro h loff hloff
    exact (hlt loff).2 (hloff.trans_le h)

/-- the bits are ints, unless a page of bits has more of them -/
theorem bits_inside_iff {n P : ℕ} (hP : 0 < P) :
    (∀ loff < n, 0 ≤ bit_of P loff ∧ bit_of P loff < bmp_page_bytes P) ↔ bmp_page_bytes P ≤ 2 ^ 31 ∨ n ≤ 2 ^ 31 := by
  have hpage : 0 < bmp_page_bytes P := Nat.mul_pos hP (by decide)
  constructor
  · intro h
    by_contra hlarge
    push Not at hlarge
    have hbit := (h (2 ^ 31) hlarge.2).1
    have hmod : (2 ^ 31 : ℕ) % bmp_page_bytes P = 2 ^ 31 := Nat.mod_eq_of_lt hlarge.1
    rw [bit_of, ← Int.natCast_mod, hmod] at hbit
    exact absurd hbit (by decide)
  · intro h loff hloff
    have hmod : loff % bmp_page_bytes P < bmp_page_bytes P := Nat.mod_lt loff hpage
    have hle : loff % bmp_page_bytes P ≤ loff := Nat.mod_le loff _
    have hbit : bit_of P loff = (loff % bmp_page_bytes P : ℕ) := by
      rw [bit_of, Int.natCast_mod]
      exact toInt_of_lt (by omega) (by omega)
    rw [hbit]
    exact ⟨Int.natCast_nonneg _, Int.ofNat_lt.2 hmod⟩

/-! ## Which pages are covered -/

/-- every page of the cache has its bit inside of the bitmap, and is not found to be outside by ulo_bmp_pindex -/
structure Covered (P cache_size bmpsz : ℕ) : Prop where
  page : ∀ loff < cache_size / P, pindex_of P loff < bmpsz / P
  bit : ∀ loff < cache_size / P, 0 ≤ bit_of P loff ∧ bit_of P loff < bmp_page_bytes P
  accepted : ∀ dev : Dev, dev.Ok P → dev.bmpsz = bmpsz → ∀ loff < cache_size / P, ∀ io,
    (ulo_bmp_pindex P dev (pindex_of P loff) io).err ≠ none ∧
      ((ulo_bmp_pindex P dev (pindex_of P loff) io).ops = [] →
        (ulo_bmp_pindex P dev (pindex_of P loff) io).err = some 0)

/-- a page of the cache whose bit is outside of the bitmap is an error, before the file is touched -/
def Refused (P : ℕ) (dev : Dev) (loff : ℕ) : Prop :=
  dev.bmpsz / P ≤ pindex_of P loff → ∀ io, ulo_bmp_pindex P dev (pindex_of P loff) io = ⟨some (- EIO), dev, []⟩

/-- the pages of the image are less than a page of bits, or they are not whole pages of bits and less than CHAR_BIT
more; and the bit of each is an int. If the cache wraps around, it has no pages at all. -/
def EnoughBits (size P : ℕ) : Prop :=
  2 ^ 64 ≤ whole_pages size P * P ∨
    (whole_pages size P < bmp_page_bytes P ∨ whole_pages size P % bmp_page_bytes P = 0 ∨
      CHAR_BIT ≤ whole_pages size P % bmp_page_bytes P) ∧
    (bmp_page_bytes P ≤ 2 ^ 31 ∨ whole_pages size P ≤ 2 ^ 31)

theorem covered_iff {P c b : ℕ} (hP : 0 < P) :
    Covered P c b ↔ c / P ≤ b / P * bmp_page_bytes P ∧ (bmp_page_bytes P ≤ 2 ^ 31 ∨ c / P ≤ 2 ^ 31) := by
  rw [← pages_inside_iff hP, ← bits_inside_iff hP]
  constructor
  · rintro ⟨hpage, hbit, -⟩
    exact ⟨hpage, hbit⟩
  · rintro ⟨hpage, hbit⟩
    refine ⟨hpage, hbit, fun dev hok hsz loff hloff io => ?_⟩
    exact ulo_bmp_pindex_inside hP hok (hsz ▸ hpage loff hloff) io

theorem refused_iff {P : ℕ} (hP : 0 < P) {dev : Dev} (h : dev.Ok P) (loff : ℕ) :
    Refused P dev loff ↔ pindex_of P loff ≠ dev.bmpsz / P := by
  constructor
  · intro hrefused heq
    have htouched := (ulo_bmp_pindex_end hP h .success).1
    rw [← heq, hrefused heq.ge] at htouched
    cases htouched
  · intro hne hout io
    exact ulo_bmp_pindex_refused h (lt_of_le_of_ne hout hne.symm) io

/-- **When the bitmap covers the cache**, and which pages outside of it are refused: all but those on the
page just behind its end. -/
theorem bitmap_covers_iff {size P : ℕ} (hP : 0 < P) (hP31 : P < 2 ^ 31) (hsize : size < 2 ^ 64) {sys : InitSys}
    {c b : ℕ} (hc : (ulo_init size P sys).cache = some c) (hb : (ulo_init size P sys).bitmap = some b) :
    (Covered P c b ↔ EnoughBits size P) ∧
      ∀ dev : Dev, dev.Ok P → ∀ loff, Refused P dev loff ↔ pindex_of P loff ≠ dev.bmpsz / P := by
  refine ⟨?_, fun dev hok loff => refused_iff hP hok loff⟩
  obtain ⟨rfl, rfl⟩ := ulo_init_sizes hc hb
  have hlt : round_up size P < 2 ^ 64 := by
    rw [round_up_eq hP hsize]
    exact Nat.mod_lt _ (by decide)
  rw [covered_iff hP, bitmap_size_eq hP hP31 hlt, Nat.mul_div_cancel _ hP, pages_suffice hP, EnoughBits,
    cache_pages hP hP31 hsize]
  split_ifs with hfit
  · rw [or_iff_right (not_le.2 hfit)]
  · have hpage : 0 < bmp_page_bytes P := Nat.mul_pos hP (by decide)
    exact iff_of_true ⟨Or.inl hpage, Or.inr (by decide)⟩ (Or.inl (not_lt.1 hfit))

/-- 32768 pages fill a page of bits -/
theorem bitmap_covers_one_page : Covered 4096 134217728 4096 := by
  have hc : (ulo_init 134217728 4096 ⟨3, 4, 0⟩).cache = some 134217728 := by decide
  have hb : (ulo_init 134217728 4096 ⟨3, 4, 0⟩).bitmap = some 4096 := by decide
  refine (bitmap_covers_iff (by decide) (by decide) (by decide) hc hb).1.2 ?_
  exact Or.inr ⟨Or.inr (Or.inl (by decide)), Or.inl (by decide)⟩

/-- one page more has no bit: the page of bits in memory is written, and then there is BUG_ON -/
theorem bitmap_one_page_short :
    ulo_init 134221824 4096 ⟨3, 4, 0⟩ = ⟨0, some 134221824, some 4096⟩ ∧ ¬Covered 4096 134221824 4096 ∧
      ∃ dev : Dev, dev.Ok 4096 ∧ dev.bmpsz = 4096 ∧ ¬Refused 4096 dev 32768 ∧
        (ulo_bmp_pindex 4096 dev (pindex_of 4096 32768) .success).ops = [.write 0] ∧
        (ulo_bmp_pindex 4096 dev (pindex_of 4096 32768) .success).err = none := by
  have hok : (⟨List.replicate 4096 0, 0, List.replicate 4096 0, 4096⟩ : Dev).Ok 4096 :=
    ⟨List.length_replicate, dvd_rfl, by decide, List.length_replicate⟩
  obtain ⟨hops, herr⟩ := ulo_bmp_pindex_end (by decide) hok .success
  refine ⟨by decide, ?_, _, hok, rfl, ?_, hops, herr rfl⟩
  · rw [covered_iff (by decide)]
    decide
  · rw [refused_iff (by decide) hok]
    decide

end AufsUtil.Uloop
