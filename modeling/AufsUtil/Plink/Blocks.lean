/-
The two arrays of auplink in memory (`plink.c`, na_append, ia_append, build_array, do_plink): the paths of all
pseudo-links, one NUL-terminated string after the other, and their inode numbers.

Both grow by one realloc(3) for each entry. The size of the block of the numbers is not computed from how many there
are, but from the bytes of the names; that suffices, because a path takes more bytes than a number.

- `na_append_spec`, `ia_append_spec`: one append, over what the arrays hold before and after it (`HoldsNa`, `HoldsIa`).
- `build_one_refines`: an entry of a plink directory does to the blocks what `Plink.build_one` does to lists.
- `arrays_hold_collected`: after all writable branches no store was outside of its block, and the arrays hold the paths
  and their leading numbers in order, so that the walk of unlink(2) and ia_test go by exactly these.

What the model keeps of C: the blocks, with each store checked against them; offsets and sizes as int,
converted where C converts them. An allocation may fail, which is AuFin. The names of a directory and which
allocations succeed are inputs.
-/
import Mathlib.Tactic
import AufsUtil.Lib.Block
import AufsUtil.Fhsm.Numerals
import AufsUtil.Plink.Flush

namespace AufsUtil.Plink.Blocks

open AufsUtil.CStr AufsUtil.Block
open AufsUtil.Fhsm (Brinfo)
open AufsUtil.Fhsm.Lister (decimal decimal_isdigit spelled_decimal strtoul_decimal)

/-! ## The arrays -/

inductive Stop where
  /-- AuFin -/
  | fin
  /-- a store outside of its block -/
  | outside
deriving DecidableEq, Repr

/-- a new block, or a larger one: what its new bytes happen to be -/
abbrev Alloc := Option (ℕ → UInt8)

/-- a size, converted to size_t -/
def size_t (v : ℤ) : ℕ := (v % 2 ^ 64).toNat

def realloc (o : Bytes) (sz : ℤ) (alloc : Alloc) : Except Stop Bytes :=
  match alloc with
  | none => .error .fin
  | some junk => .ok (resize o (size_t sz) junk)

/-- a store at an offset -/
def put (o : Bytes) (cur : ℤ) (s : Bytes) : Except Stop Bytes :=
  if cur < 0 then .error .outside
  else
    match store o cur.toNat s with
    | none => .error .outside
    | some o => .ok o

/-- o is the block, cur the distance of the pointer from its start -/
structure name_array where
  o : Bytes
  bytes : ℤ
  cur : ℤ
  nname : ℕ

structure ino_array where
  o : Bytes
  bytes : ℤ
  cur : ℤ
  nino : ℕ

structure Globals where
  na : name_array
  ia : ino_array

def Globals.zero : Globals := ⟨⟨[], 0, 0, 0⟩, ⟨[], 0, 0, 0⟩⟩

def na_append (na : name_array) (plink_dir name : Bytes) (alloc : Alloc) : Except Stop name_array := do
  let cur := toInt na.cur
  let l := toInt (plink_dir.length + name.length + 2)
  let sz := toInt (na.bytes + l)
  let p ← realloc na.o sz alloc
  let o ← put p cur (plink_dir ++ 47 :: name ++ [0])
  return ⟨o, sz, cur + (plink_dir.length + 1 + name.length) + 1, na.nname + 1⟩

/-- na_bytes is na.bytes -/
def ia_append (na_bytes : ℤ) (ia : ino_array) (ino : ℕ) (alloc : Alloc) : Except Stop ino_array := do
  let cur := toInt ia.cur
  let sz := toInt (size_t na_bytes + 8)
  let p ← realloc ia.o sz alloc
  let o ← put p cur (le 8 ino)
  return ⟨o, sz, cur + 8, ia.nino + 1⟩

/-- the allocations for one name -/
structure Allocs where
  na : Alloc
  ia : Alloc

/-- one entry of a plink directory -/
def build_one (plink_dir : Bytes) (g : Globals) (d : Bytes) (al : Allocs) : Except Stop Globals :=
  if dots d then .ok g
  else do
    let na ← na_append g.na plink_dir d al.na
    match d.findIdx? (· = 46) with
    | none => .error .fin
    | some p =>
      match strtoull (d.take p) with
      | none => .error .fin
      | some ino => do
        let ia ← ia_append na.bytes g.ia ino al.ia
        return ⟨na, ia⟩

/-- a plink directory: is it there, and its entries if it can be opened -/
structure Dir where
  access : Bool
  opendir : Option (List (Bytes × Allocs))

def build_names (plink_dir : Bytes) : List (Bytes × Allocs) → Globals → Except Stop Globals
  | [], g => .ok g
  | d :: ds, g => do
    let g ← build_one plink_dir g d.1 d.2
    build_names plink_dir ds g

def build_array (plink_dir : Bytes) (dir : Dir) (g : Globals) : Except Stop Globals :=
  if !dir.access then .ok g
  else
    match dir.opendir with
    | none => .error .fin
    | some ds => build_names plink_dir ds g

/-- a branch, the allocation for the path of its plink directory, and this directory -/
structure Branch where
  info : Brinfo
  malloc : Alloc
  dir : Dir

/-- the loop of do_plink over the branches -/
def collect : List Branch → Globals → Except Stop Globals
  | [], g => .ok g
  | b :: bs, g =>
    if !au_br_writable b.info.perm then collect bs g
    else do
      let l := toInt b.info.path.length
      let p ← realloc [] (l + (AUFS_WH_PLINKDIR.length + 1) + 2) b.malloc
      let p ← put p 0 (b.info.path ++ 47 :: AUFS_WH_PLINKDIR ++ [0])
      let g ← build_array (cstr p 0) b.dir g
      collect bs g

/-- is ino among the first nino numbers -/
def ia_test (ia : ino_array) (ino : ℕ) : Bool :=
  (List.range ia.nino).any fun i => ofLe ((ia.o.drop (8 * i)).take 8) == ino

/-- the loop over the names; it ends in AuFin at the first unlink that fails -/
def unlink_run (S : Sys) (o : Bytes) : ℕ → ℕ → List Op
  | 0, _ => []
  | n + 1, cur =>
    .unlink (cstr o cur) :: if S.unlink (cstr o cur) then unlink_run S o n (cur + (strlen o cur + 1)) else []

/-! ## What the arrays hold -/

structure HoldsNa (ns : List Bytes) (na : name_array) : Prop where
  o : na.o = encode ns
  bytes : na.bytes = (encode ns).length
  cur : na.cur = (encode ns).length
  nname : na.nname = ns.length

/-- numbers, each in eight bytes -/
def numbers (is : List ℕ) : Bytes := is.flatMap fun i : ℕ => le 8 i

@[simp] theorem length_numbers (is : List ℕ) : (numbers is).length = 8 * is.length := by
  induction is with
  | nil => rfl
  | cons i is ih =>
    rw [numbers, List.flatMap_cons, List.length_append, length_le, List.length_cons]
    rw [numbers] at ih
    omega

structure HoldsIa (is : List ℕ) (ia : ino_array) : Prop where
  o : numbers is <+: ia.o
  cur : ia.cur = 8 * is.length
  nino : ia.nino = is.length

theorem put_ok {o s : Bytes} {n : ℕ} (h : n + s.length ≤ o.length) :
    ∃ o', store o n s = some o' ∧ put o n s = .ok o' := by
  obtain ⟨o', ho⟩ := Option.isSome_iff_exists.1 (store_isSome.2 h)
  refine ⟨o', ho, ?_⟩
  rw [put, if_neg (not_lt.2 (Int.natCast_nonneg n)), Int.toNat_natCast, ho]

/-- a store behind known bytes -/
theorem put_behind {x o s : Bytes} (hx : x <+: o) (h : x.length + s.length ≤ o.length) :
    ∃ z, put o x.length s = .ok (x ++ s ++ z) ∧ (x ++ s ++ z).length = o.length := by
  obtain ⟨y, rfl⟩ := hx
  rw [List.length_append] at h
  have hstore := store_append (x := x) (y := y) (s := s) (by omega)
  obtain ⟨o', ho, hput⟩ := put_ok (o := x ++ y) (s := s) (n := x.length) (by rw [List.length_append]; omega)
  obtain rfl := Option.some.inj (hstore.symm.trans ho)
  exact ⟨_, hput, store_inside hstore⟩

/-- a block that grows keeps its bytes, and has the new size -/
theorem realloc_ok {x o : Bytes} (sz : ℤ) (alloc : Alloc) (hx : x <+: o) (hsz : x.length ≤ size_t sz) :
    (alloc = none ∧ realloc o sz alloc = .error .fin) ∨
      ∃ p, realloc o sz alloc = .ok p ∧ x <+: p ∧ p.length = size_t sz := by
  cases alloc with
  | none => exact Or.inl ⟨rfl, rfl⟩
  | some junk => exact Or.inr ⟨_, rfl, resize_prefix junk hx hsz, length_resize _ _ _⟩

theorem encode_child (ns : List Bytes) (dir d : Bytes) :
    (encode (ns ++ [child dir d])).length = (encode ns).length + (dir.length + d.length + 2) := by
  rw [encode_append, encode_cons, encode_nil, child, List.length_append, List.length_append, List.length_append,
    List.length_cons, List.length_cons, List.length_nil]
  omega

/-- **One name** is appended: the block is larger by exactly its bytes. -/
theorem na_append_spec {ns : List Bytes} {na : name_array} (h : HoldsNa ns na) (dir d : Bytes) (alloc : Alloc)
    (hlen : (encode (ns ++ [child dir d])).length < 2 ^ 31) :
    (alloc = none ∧ na_append na dir d alloc = .error .fin) ∨
      ∃ na', na_append na dir d alloc = .ok na' ∧ HoldsNa (ns ++ [child dir d]) na' := by
  obtain ⟨ho, hbytes, hcur, hname⟩ := h
  have htotal := encode_child ns dir d
  have hcur' : toInt na.cur = (encode ns).length := by
    rw [hcur]
    exact toInt_of_lt (by omega) (by omega)
  have hl : toInt (dir.length + d.length + 2) = dir.length + d.length + 2 := toInt_of_lt (by omega) (by omega)
  have hsz : toInt (na.bytes + (dir.length + d.length + 2)) = (encode (ns ++ [child dir d])).length := by
    rw [hbytes, htotal, toInt_of_lt (by omega) (by omega)]
    omega
  have hsize : size_t (encode (ns ++ [child dir d])).length = (encode (ns ++ [child dir d])).length := by
    unfold size_t
    omega
  rw [na_append]
  simp only [hcur', hl, hsz]
  rcases realloc_ok (encode (ns ++ [child dir d])).length alloc (ho ▸ List.prefix_rfl : encode ns <+: na.o)
      (by rw [hsize]; omega) with ⟨hnone, hfin⟩ | ⟨p, hp, hpre, hplen⟩
  · rw [hfin]
    exact Or.inl ⟨hnone, rfl⟩
  · have htext : (dir ++ 47 :: d ++ [0]).length = dir.length + d.length + 2 := by
      rw [List.length_append, List.length_append, List.length_cons, List.length_singleton]
      omega
    obtain ⟨z, hput, hz⟩ := put_behind (s := dir ++ 47 :: d ++ [0]) hpre (by omega)
    -- the new block is full
    have hnil : z = [] := by
      rw [List.length_append, List.length_append] at hz
      exact List.length_eq_zero_iff.1 (by omega)
    rw [hp, ok_bind, hput, ok_bind, hnil, List.append_nil]
    refine Or.inr ⟨_, rfl, ?_, rfl, ?_, ?_⟩
    · simp [child]
    · show ((encode ns).length : ℤ) + (dir.length + 1 + d.length) + 1 = (encode (ns ++ [child dir d])).length
      omega
    · rw [hname, List.length_append, List.length_singleton]

/-- **One number** is appended. The block has the bytes of the names and eight more; these are enough for the numbers as
long as every name has taken eight. -/
theorem ia_append_spec {is : List ℕ} {ia : ino_array} (h : HoldsIa is ia) {bytes : ℕ} (ino : ℕ) (alloc : Alloc)
    (hroom : 8 * is.length ≤ bytes) (hbytes : bytes < 2 ^ 31) :
    (alloc = none ∧ ia_append bytes ia ino alloc = .error .fin) ∨
      ∃ ia', ia_append bytes ia ino alloc = .ok ia' ∧ HoldsIa (is ++ [ino]) ia' := by
  obtain ⟨ho, hcur, hino⟩ := h
  have hcur' : toInt ia.cur = (numbers is).length := by
    rw [hcur, length_numbers, toInt_of_lt (by omega) (by omega)]
    rfl
  -- the int may be negative; as a size_t it is large then
  have hsize : bytes + 8 ≤ size_t (toInt (size_t bytes + 8)) := by
    unfold size_t toInt
    omega
  rw [ia_append]
  simp only [hcur']
  rcases realloc_ok _ alloc ho (by rw [length_numbers]; omega : (numbers is).length ≤ size_t (toInt (size_t bytes + 8)))
    with ⟨hnone, hfin⟩ | ⟨p, hp, hpre, hplen⟩
  · rw [hfin]
    exact Or.inl ⟨hnone, rfl⟩
  · obtain ⟨z, hput, -⟩ := put_behind (s := le 8 ino) hpre (by rw [length_le, length_numbers]; omega)
    rw [hp, ok_bind, hput, ok_bind]
    refine Or.inr ⟨_, rfl, ⟨z, ?_⟩, ?_, ?_⟩
    · simp [numbers]
    · show ((numbers is).length : ℤ) + 8 = 8 * (is ++ [ino]).length
      rw [length_numbers, List.length_append, List.length_singleton]
      omega
    · rw [hino, List.length_append, List.length_singleton]

/-! ## Directories -/

/-- the blocks hold the lists, and every name has taken eight bytes -/
structure Holds (a : Arrays) (g : Globals) : Prop where
  na : HoldsNa a.na g.na
  ia : HoldsIa a.ia g.ia
  same : a.ia.length = a.na.length
  room : 8 * a.na.length ≤ (encode a.na).length

theorem holds_zero : Holds ⟨[], []⟩ .zero :=
  ⟨⟨rfl, rfl, rfl, rfl⟩, ⟨List.prefix_rfl, rfl, rfl⟩, rfl, le_rfl⟩

/-- what an entry adds to the lists; `none` if its name has no dot, or no number in front of it -/
def entry (a : Arrays) (plink_dir d : Bytes) : Option Arrays :=
  if dots d then some a
  else
    match d.findIdx? (· = 46) with
    | none => none
    | some p => (strtoull (d.take p)).map fun ino => ⟨a.na ++ [child plink_dir d], a.ia ++ [ino]⟩

/-- it is what `Plink.build_one` adds, if the allocations succeed -/
theorem build_one_entry {S : Sys} {dir d : Bytes} (hS : S.realloc dir d = true) (a : Arrays) :
    Plink.build_one S dir a d = entry a dir d := by
  rw [Plink.build_one, entry, hS]
  split_ifs with hdots hno
  · rfl
  · exact absurd hno (by decide)
  · cases d.findIdx? (· = 46) with
    | none => rfl
    | some p =>
      dsimp only
      cases strtoull (d.take p) <;> rfl

/-- an allocation for an entry fails -/
def Allocs.Fails (al : Allocs) : Prop := al.na = none ∨ al.ia = none

/-- **One entry.** A directory whose path has at least six characters has names that take at least eight bytes. -/
theorem build_one_spec {a : Arrays} {g : Globals} (h : Holds a g) {dir d : Bytes} (al : Allocs) (hdir : 6 ≤ dir.length)
    (hlen : (encode (a.na ++ [child dir d])).length < 2 ^ 31) :
    ((entry a dir d = none ∨ al.Fails) ∧ build_one dir g d al = .error .fin) ∨
      ∃ a' g', entry a dir d = some a' ∧ build_one dir g d al = .ok g' ∧ Holds a' g' := by
  rw [build_one, entry]
  by_cases hdots : dots d = true
  · rw [if_pos hdots, if_pos hdots]
    exact Or.inr ⟨a, g, rfl, rfl, h⟩
  · rw [if_neg hdots, if_neg hdots]
    have htotal := encode_child a.na dir d
    rcases na_append_spec h.na dir d al.na hlen with ⟨hnone, hfin⟩ | ⟨na', hna, hholds⟩
    · rw [hfin]
      exact Or.inl ⟨Or.inr (Or.inl hnone), rfl⟩
    · rw [hna, ok_bind]
      cases d.findIdx? (· = 46) with
      | none => exact Or.inl ⟨Or.inl rfl, rfl⟩
      | some p =>
        dsimp only
        cases strtoull (d.take p) with
        | none => exact Or.inl ⟨Or.inl rfl, rfl⟩
        | some ino =>
          have hroom := h.room
          have hsame := h.same
          have hnew : 8 * (a.na ++ [child dir d]).length ≤ (encode (a.na ++ [child dir d])).length := by
            rw [List.length_append, List.length_singleton]
            omega
          dsimp only
          rw [hholds.bytes]
          rcases ia_append_spec h.ia ino al.ia (by omega) hlen with ⟨hnone, hfin⟩ | ⟨ia', hia, hholds'⟩
          · rw [hfin]
            exact Or.inl ⟨Or.inr (Or.inr hnone), rfl⟩
          · rw [hia]
            refine Or.inr ⟨_, _, rfl, rfl, hholds, hholds', ?_, hnew⟩
            rw [List.length_append, List.length_append, hsame]
            rfl

/-- the blocks do what the lists of `Plink.build_one` do -/
theorem build_one_refines {a : Arrays} {g g' : Globals} (h : Holds a g) {dir d : Bytes} {al : Allocs}
    (hdir : 6 ≤ dir.length) (hlen : (encode (a.na ++ [child dir d])).length < 2 ^ 31) {S : Sys}
    (hS : S.realloc dir d = true) (hg : build_one dir g d al = .ok g') :
    ∃ a', Plink.build_one S dir a d = some a' ∧ Holds a' g' := by
  rcases build_one_spec h al hdir hlen with ⟨-, hfin⟩ | ⟨a', g'', ha, hok, hholds⟩
  · rw [hfin] at hg
    cases hg
  · obtain rfl := Except.ok.inj (hok.symm.trans hg)
    exact ⟨a', (build_one_entry hS a).trans ha, hholds⟩

/-! ## Pseudo-links -/

/-- the name of a pseudo-link: the two inode numbers -/
def plink_name (ino h_ino : ℕ) : Bytes := decimal ino ++ 46 :: decimal h_ino

def IsPlink (d : Bytes) : Prop := ∃ ino h_ino, ino < 2 ^ 64 ∧ d = plink_name ino h_ino

/-- the number in front of the dot -/
def leading (d : Bytes) : ℕ := Strtol.spelled (d.takeWhile (· ≠ 46))

theorem strtoull_eq (s : Bytes) : strtoull s = Strtol.strtoul s := rfl

theorem decimal_no_dot (n : ℕ) : ∀ c ∈ decimal n, c ≠ 46 := by
  rintro c hc rfl
  exact absurd (decimal_isdigit n 46 hc) (by decide)

theorem leading_plink_name (ino h_ino : ℕ) : leading (plink_name ino h_ino) = ino := by
  rw [leading, plink_name, List.takeWhile_append_of_pos (by simpa using decimal_no_dot ino)]
  simp [spelled_decimal]

theorem entry_plink (a : Arrays) (dir : Bytes) {d : Bytes} (hd : IsPlink d) :
    dots d = false ∧ entry a dir d = some ⟨a.na ++ [child dir d], a.ia ++ [leading d]⟩ := by
  obtain ⟨ino, h_ino, hino, rfl⟩ := hd
  have hdots : dots (plink_name ino h_ino) = false := by
    obtain ⟨c, ds, hcons⟩ := List.exists_cons_of_ne_nil (Fhsm.Lister.decimal_ne_nil ino)
    have hc := decimal_no_dot ino c (hcons ▸ List.mem_cons_self)
    simp [dots, plink_name, hcons, hc]
  have hidx : (plink_name ino h_ino).findIdx? (· = 46) = some (decimal ino).length := by
    rw [plink_name, List.findIdx?_append, List.findIdx?_eq_none_iff.2 (by simpa using decimal_no_dot ino)]
    simp [List.findIdx?_cons]
  have hread : strtoull (decimal ino) = some ino := by
    have := strtoul_decimal hino (Or.inl rfl)
    rwa [List.append_nil, ← strtoull_eq] at this
  refine ⟨hdots, ?_⟩
  rw [entry, hdots, if_neg Bool.false_ne_true, hidx, leading_plink_name]
  dsimp only
  rw [plink_name, List.take_left, hread]
  rfl

/-- the names of a directory that are not passed over -/
def names (ds : List (Bytes × Allocs)) : List Bytes := (ds.map Prod.fst).filter fun d => !dots d

theorem names_cons (d : Bytes × Allocs) (ds : List (Bytes × Allocs)) :
    names (d :: ds) = if dots d.1 then names ds else d.1 :: names ds := by
  rw [names, List.map_cons, List.filter_cons]
  cases dots d.1 <;> rfl

theorem encode_le_append (ns ms : List Bytes) : (encode ns).length ≤ (encode (ns ++ ms)).length := by
  rw [encode_append, List.length_append]
  exact Nat.le_add_right _ _

/-- **One directory.** -/
theorem build_names_spec {dir : Bytes} (hdir : 6 ≤ dir.length) (ds : List (Bytes × Allocs)) :
    ∀ {a : Arrays} {g : Globals}, Holds a g → (∀ d ∈ ds, dots d.1 = true ∨ IsPlink d.1) →
    (encode (a.na ++ (names ds).map (child dir))).length < 2 ^ 31 →
    ((∃ d ∈ ds, d.2.Fails) ∧ build_names dir ds g = .error .fin) ∨ ∃ g', build_names dir ds g = .ok g' ∧
      Holds ⟨a.na ++ (names ds).map (child dir), a.ia ++ (names ds).map leading⟩ g' := by
  induction ds with
  | nil =>
    intro a g h _ _
    refine Or.inr ⟨g, rfl, ?_⟩
    simpa [names] using h
  | cons d ds ih =>
    intro a g h hds hlen
    have hrest : ∀ e ∈ ds, dots e.1 = true ∨ IsPlink e.1 := fun e he => hds e (List.mem_cons_of_mem d he)
    have fails_later : (∃ e ∈ ds, e.2.Fails) → ∃ e ∈ d :: ds, e.2.Fails := by
      rintro ⟨e, he, hfails⟩
      exact ⟨e, List.mem_cons_of_mem d he, hfails⟩
    rw [names_cons] at hlen ⊢
    rw [build_names]
    rcases hds d List.mem_cons_self with hdots | hplink
    · rw [if_pos hdots] at hlen ⊢
      have hskip : build_one dir g d.1 d.2 = .ok g := by rw [build_one, if_pos hdots]
      rw [hskip, ok_bind]
      exact (ih h hrest hlen).imp_left fun hfin => ⟨fails_later hfin.1, hfin.2⟩
    · obtain ⟨hdots, hentry⟩ := entry_plink a dir hplink
      rw [hdots, if_neg Bool.false_ne_true, List.map_cons] at hlen ⊢
      have hcons : a.na ++ child dir d.1 :: (names ds).map (child dir) =
          (a.na ++ [child dir d.1]) ++ (names ds).map (child dir) := by simp
      rw [hcons] at hlen ⊢
      have hone := (encode_le_append (a.na ++ [child dir d.1]) ((names ds).map (child dir))).trans_lt hlen
      rcases build_one_spec h d.2 hdir hone with ⟨hfails, hfin⟩ | ⟨a', g', ha, hok, hholds⟩
      · rw [hfin]
        refine Or.inl ⟨⟨d, List.mem_cons_self, hfails.resolve_left ?_⟩, rfl⟩
        rw [hentry]
        exact Option.some_ne_none _
      · obtain rfl := Option.some.inj (hentry.symm.trans ha)
        rw [hok, ok_bind]
        have hnums : a.ia ++ (d.1 :: names ds).map leading = (a.ia ++ [leading d.1]) ++ (names ds).map leading := by
          simp
        rw [hnums]
        exact (ih hholds hrest hlen).imp_left fun hfin => ⟨fails_later hfin.1, hfin.2⟩

/-! ## All branches -/

/-- the names of a branch that are not passed over -/
def found (b : Branch) : List Bytes :=
  if au_br_writable b.info.perm && b.dir.access then names (b.dir.opendir.getD []) else []

def plink_dir (b : Branch) : Bytes := child b.info.path AUFS_WH_PLINKDIR

/-- the paths of all pseudo-links, in the order of the branches and of their directories -/
def paths (bs : List Branch) : List Bytes := bs.flatMap fun b => (found b).map (child (plink_dir b))

/-- and their leading numbers -/
def inos (bs : List Branch) : List ℕ := bs.flatMap fun b => (found b).map leading

/-- a branch with pseudo-links in its plink directory; the kernel describes it in 4096 bytes, but an int is enough -/
structure Branch.Ok (b : Branch) : Prop where
  path : b.info.path.length + 15 < 2 ^ 31
  nul : (0 : UInt8) ∉ b.info.path
  plinks : ∀ ds ∈ b.dir.opendir, ∀ d ∈ ds, dots d.1 = true ∨ IsPlink d.1

/-- an allocation or the opendir(3) for a writable branch fails -/
def Branch.Fails (b : Branch) : Prop :=
  b.malloc = none ∨ (b.dir.access = true ∧ b.dir.opendir = none) ∨ ∃ ds ∈ b.dir.opendir, ∃ d ∈ ds, d.2.Fails

theorem plink_dir_nul {b : Branch} (hb : b.Ok) : (0 : UInt8) ∉ plink_dir b := by
  rw [plink_dir, child, List.mem_append, List.mem_cons]
  rintro (h | h | h)
  · exact hb.nul h
  · exact absurd h (by decide)
  · exact absurd h (by decide)

/-- the path of a plink directory is made in a block that is large enough -/
theorem plink_dir_made {b : Branch} (hb : b.Ok) {p : Bytes}
    (hp : p.length = size_t (toInt b.info.path.length + (AUFS_WH_PLINKDIR.length + 1) + 2)) :
    ∃ q, put p 0 (b.info.path ++ 47 :: AUFS_WH_PLINKDIR ++ [0]) = .ok q ∧ cstr q 0 = plink_dir b := by
  have hpath := hb.path
  have hplen : p.length = b.info.path.length + 15 := by
    have h12 : AUFS_WH_PLINKDIR.length = 12 := rfl
    rw [hp, toInt_of_lt (by omega) (by omega), h12]
    unfold size_t
    omega
  have hslen : (b.info.path ++ 47 :: AUFS_WH_PLINKDIR ++ [0]).length = b.info.path.length + 14 := by
    simp [AUFS_WH_PLINKDIR]
  obtain ⟨z, hput, -⟩ := put_behind (x := []) (o := p) (s := b.info.path ++ 47 :: AUFS_WH_PLINKDIR ++ [0])
    List.nil_prefix (by rw [List.length_nil]; omega)
  refine ⟨_, hput, ?_⟩
  have hsplit : [] ++ (b.info.path ++ 47 :: AUFS_WH_PLINKDIR ++ [0]) ++ z = plink_dir b ++ 0 :: z := by
    simp [plink_dir, child]
  rw [hsplit, cstr_zero z (plink_dir_nul hb)]

theorem plink_dir_length (b : Branch) : 6 ≤ (plink_dir b).length := by
  rw [plink_dir, child, List.length_append, List.length_cons]
  have h12 : AUFS_WH_PLINKDIR.length = 12 := rfl
  omega

theorem build_array_spec {b : Branch} (hb : b.Ok) (hw : au_br_writable b.info.perm = true) {a : Arrays} {g : Globals}
    (h : Holds a g) (hlen : (encode (a.na ++ (found b).map (child (plink_dir b)))).length < 2 ^ 31) :
    (b.Fails ∧ build_array (plink_dir b) b.dir g = .error .fin) ∨ ∃ g', build_array (plink_dir b) b.dir g = .ok g' ∧
      Holds ⟨a.na ++ (found b).map (child (plink_dir b)), a.ia ++ (found b).map leading⟩ g' := by
  rw [build_array]
  cases hacc : b.dir.access with
  | false =>
    have hnone : found b = [] := by simp [found, hacc]
    refine Or.inr ⟨g, rfl, ?_⟩
    simpa [hnone] using h
  | true =>
    cases hopen : b.dir.opendir with
    | none => exact Or.inl ⟨Or.inr (Or.inl ⟨hacc, hopen⟩), rfl⟩
    | some ds =>
      have hfound : found b = names ds := by simp [found, hacc, hw, hopen]
      rw [hfound] at hlen ⊢
      have hspec := build_names_spec (plink_dir_length b) ds h (hb.plinks ds hopen) hlen
      exact hspec.imp_left fun hfin => ⟨Or.inr (Or.inr ⟨ds, hopen, hfin.1⟩), hfin.2⟩

theorem collect_spec (bs : List Branch) : ∀ {a : Arrays} {g : Globals}, Holds a g → (∀ b ∈ bs, b.Ok) →
    (encode (a.na ++ paths bs)).length < 2 ^ 31 →
    ((∃ b ∈ bs, b.Fails) ∧ collect bs g = .error .fin) ∨ ∃ g', collect bs g = .ok g' ∧
      Holds ⟨a.na ++ paths bs, a.ia ++ inos bs⟩ g' := by
  induction bs with
  | nil =>
    intro a g h _ _
    refine Or.inr ⟨g, rfl, ?_⟩
    simpa [paths, inos] using h
  | cons b bs ih =>
    intro a g h hbs hlen
    have hb := hbs b List.mem_cons_self
    have hrest : ∀ c ∈ bs, c.Ok := fun c hc => hbs c (List.mem_cons_of_mem b hc)
    have fails_later : (∃ c ∈ bs, c.Fails) → ∃ c ∈ b :: bs, c.Fails := by
      rintro ⟨c, hc, hfails⟩
      exact ⟨c, List.mem_cons_of_mem b hc, hfails⟩
    have hpaths : a.na ++ paths (b :: bs) = (a.na ++ (found b).map (child (plink_dir b))) ++ paths bs := by simp [paths]
    have hinos : a.ia ++ inos (b :: bs) = (a.ia ++ (found b).map leading) ++ inos bs := by simp [inos]
    rw [hpaths] at hlen ⊢
    rw [hinos, collect]
    cases hw : au_br_writable b.info.perm with
    | false =>
      have hnone : found b = [] := by simp [found, hw]
      simp only [hnone, List.map_nil, List.append_nil] at hlen ⊢
      exact (ih h hrest hlen).imp_left fun hfin => ⟨fails_later hfin.1, hfin.2⟩
    | true =>
      have hone := (encode_le_append (a.na ++ (found b).map (child (plink_dir b))) (paths bs)).trans_lt hlen
      simp only [Bool.not_true, Bool.false_eq_true, if_false]
      rcases realloc_ok (toInt b.info.path.length + (AUFS_WH_PLINKDIR.length + 1) + 2) b.malloc
          (List.nil_prefix : [] <+: ([] : Bytes)) (Nat.zero_le _) with ⟨hnone, hfin⟩ | ⟨p, hp, -, hplen⟩
      · rw [hfin]
        exact Or.inl ⟨⟨b, List.mem_cons_self, Or.inl hnone⟩, rfl⟩
      · obtain ⟨q, hput, hq⟩ := plink_dir_made hb hplen
        rw [hp, ok_bind, hput, ok_bind, hq]
        rcases build_array_spec hb hw h hone with ⟨hfails, hfin⟩ | ⟨g', hok, hholds⟩
        · rw [hfin]
          exact Or.inl ⟨⟨b, List.mem_cons_self, hfails⟩, rfl⟩
        · rw [hok, ok_bind]
          exact (ih hholds hrest hlen).imp_left fun hfin => ⟨fails_later hfin.1, hfin.2⟩

/-! ## Reading the arrays -/

/-- the walk over the names goes by the records -/
theorem unlink_run_encode (S : Sys) (ns : List Bytes) : ∀ ts : List Bytes, (∀ n ∈ ns, (0 : UInt8) ∉ n) →
    unlink_run S (encode ts ++ encode ns) ns.length (encode ts).length = unlink_loop S ns := by
  induction ns with
  | nil => exact fun _ _ => rfl
  | cons n ns ih =>
    intro ts hns
    have hsplit : encode ts ++ encode (n :: ns) = encode ts ++ n ++ 0 :: encode ns := by simp
    have hnext : encode ts ++ encode (n :: ns) = encode (ts ++ [n]) ++ encode ns := by simp
    have hcstr : cstr (encode ts ++ encode (n :: ns)) (encode ts).length = n := by
      rw [hsplit, cstr_encode ts n _ (hns n List.mem_cons_self)]
    have hcur : (encode ts).length + (n.length + 1) = (encode (ts ++ [n])).length := by simp
    rw [List.length_cons, unlink_run, strlen, hcstr, hcur, unlink_loop, hnext,
      ih (ts ++ [n]) fun m hm => hns m (List.mem_cons_of_mem n hm)]

/-- eight bytes are one number -/
theorem numbers_at {is : List ℕ} {z : Bytes} : ∀ {i v : ℕ}, is[i]? = some v →
    ((numbers is ++ z).drop (8 * i)).take 8 = le 8 v := by
  induction is with
  | nil => simp
  | cons j is ih =>
    intro i v hv
    have hsplit : numbers (j :: is) ++ z = le 8 j ++ (numbers is ++ z) := by simp [numbers]
    have h8 : (le 8 (j : ℤ)).length = 8 := length_le 8 j
    rw [hsplit]
    cases i with
    | zero =>
      rw [List.getElem?_cons_zero, Option.some.injEq] at hv
      rw [Nat.mul_zero, List.drop_zero, List.take_left' h8, hv]
    | succ i =>
      rw [List.getElem?_cons_succ] at hv
      rw [Nat.mul_succ, Nat.add_comm, ← List.drop_drop, List.drop_left' h8]
      exact ih hv

theorem ofLe_eight {v : ℕ} (hv : v < 2 ^ 64) : ofLe (le 8 v) = v := by
  have h := ofLe_le 8 v
  omega

theorem ia_test_iff {is : List ℕ} {ia : ino_array} (h : HoldsIa is ia) (his : ∀ i ∈ is, i < 2 ^ 64) (ino : ℕ) :
    ia_test ia ino = true ↔ ino ∈ is := by
  obtain ⟨z, hz⟩ := h.o
  have hread : ∀ {i v : ℕ}, is[i]? = some v → ofLe ((ia.o.drop (8 * i)).take 8) = v := by
    intro i v hv
    rw [← hz, numbers_at hv, ofLe_eight (his v (List.mem_of_getElem? hv))]
  rw [ia_test, h.nino, List.any_eq_true]
  constructor
  · rintro ⟨i, hi, heq⟩
    have hlt := List.mem_range.1 hi
    rw [beq_iff_eq, hread (List.getElem?_eq_getElem hlt)] at heq
    exact heq ▸ List.getElem_mem hlt
  · intro hmem
    obtain ⟨i, hi⟩ := List.getElem?_of_mem hmem
    refine ⟨i, List.mem_range.2 (List.getElem?_eq_some_iff.1 hi).1, ?_⟩
    rw [beq_iff_eq, hread hi]

theorem found_plink {b : Branch} (hb : b.Ok) {d : Bytes} (hd : d ∈ found b) : IsPlink d := by
  rw [found] at hd
  split_ifs at hd
  · cases hopen : b.dir.opendir with
    | none => simp [hopen, names] at hd
    | some ds =>
      rw [hopen, Option.getD_some, names, List.mem_filter, List.mem_map] at hd
      obtain ⟨⟨e, he, rfl⟩, hdots⟩ := hd
      refine (hb.plinks ds hopen e he).resolve_left ?_
      simpa using hdots
  · cases hd

theorem paths_nul {bs : List Branch} (hbs : ∀ b ∈ bs, b.Ok) : ∀ n ∈ paths bs, (0 : UInt8) ∉ n := by
  intro n hn
  obtain ⟨b, hb, hn⟩ := List.mem_flatMap.1 hn
  obtain ⟨d, hd, rfl⟩ := List.mem_map.1 hn
  obtain ⟨ino, h_ino, -, rfl⟩ := found_plink (hbs b hb) hd
  have hdec : ∀ k, (0 : UInt8) ∉ decimal k := fun k h => absurd (decimal_isdigit k 0 h) (by decide)
  simp [child, plink_name, plink_dir_nul (hbs b hb), hdec]

theorem inos_lt {bs : List Branch} (hbs : ∀ b ∈ bs, b.Ok) : ∀ i ∈ inos bs, i < 2 ^ 64 := by
  intro i hi
  obtain ⟨b, hb, hi⟩ := List.mem_flatMap.1 hi
  obtain ⟨d, hd, rfl⟩ := List.mem_map.1 hi
  obtain ⟨ino, h_ino, hino, rfl⟩ := found_plink (hbs b hb) hd
  rwa [leading_plink_name]

/-- **The arrays hold what was collected.** If no allocation and no opendir(3) fails (else it may be AuFin), no store is
outside of its block, na.o is the paths in order, each with its NUL, and the walk of unlink(2) goes over exactly these;
ia.o is their leading numbers in order, and ia_test is true of exactly these. -/
theorem arrays_hold_collected (bs : List Branch) (hbs : ∀ b ∈ bs, b.Ok) (hlen : (encode (paths bs)).length < 2 ^ 31) :
    ((∃ b ∈ bs, b.Fails) ∧ collect bs .zero = .error .fin) ∨ ∃ g, collect bs .zero = .ok g ∧
      (g.na.o = encode (paths bs) ∧ g.na.nname = (paths bs).length ∧
        ∀ S, unlink_run S g.na.o g.na.nname 0 = unlink_loop S (paths bs)) ∧
      numbers (inos bs) <+: g.ia.o ∧ g.ia.nino = (inos bs).length ∧ g.ia.nino = g.na.nname ∧
        ∀ ino, ia_test g.ia ino = true ↔ ino ∈ inos bs := by
  rcases collect_spec bs holds_zero hbs (by rwa [List.nil_append]) with hfin | ⟨g, hg, hholds⟩
  · exact Or.inl hfin
  · rw [List.nil_append, List.nil_append] at hholds
    obtain ⟨hna, hia, hsame, -⟩ := hholds
    refine Or.inr ⟨g, hg, ⟨hna.o, hna.nname, fun S => ?_⟩, hia.o, hia.nino, ?_, ia_test_iff hia (inos_lt hbs)⟩
    · have := unlink_run_encode S (paths bs) [] (paths_nul hbs)
      rwa [encode_nil, List.nil_append, List.length_nil, ← hna.o, ← hna.nname] at this
    · rw [hia.nino, hna.nname]
      exact hsame

/-- a writable branch with the pseudo-links "12.3" and one more; every block moves when it grows -/
def rw_branch (path : Bytes) (ino : ℕ) : Branch where
  info := ⟨0, AuBrPerm_RW, path⟩
  malloc := some fun _ => 0
  dir := ⟨true, some [(plink_name 12 3, ⟨some fun _ => 0, some fun _ => 0⟩),
    (plink_name ino 4, ⟨some fun _ => 0, some fun _ => 0⟩)]⟩

/-- "/rw" and "/rx" -/
def rw_branches : List Branch := [rw_branch [47, 114, 119] 40, rw_branch [47, 114, 120] 41]

theorem rw_branch_ok {path : Bytes} (hlen : path.length + 15 < 2 ^ 31) (hpath : (0 : UInt8) ∉ path) {ino : ℕ}
    (hino : ino < 2 ^ 64) : (rw_branch path ino).Ok := by
  refine ⟨hlen, hpath, fun ds hds d hd => ?_⟩
  obtain rfl := Option.some.inj hds
  right
  rcases List.mem_cons.1 hd with rfl | hd
  · exact ⟨12, 3, by decide, rfl⟩
  · obtain rfl := List.mem_singleton.1 hd
    exact ⟨ino, 4, hino, rfl⟩

theorem rw_branch_works (path : Bytes) (ino : ℕ) : ¬(rw_branch path ino).Fails := by
  rintro (hmalloc | ⟨-, hopen⟩ | ⟨ds, hds, d, hd, hfails⟩)
  · cases hmalloc
  · cases hopen
  · obtain rfl := Option.some.inj hds
    rcases List.mem_cons.1 hd with rfl | hd
    · exact hfails.elim nofun nofun
    · obtain rfl := List.mem_singleton.1 hd
      exact hfails.elim nofun nofun

theorem arrays_hold_collected_two :
    ∃ g, collect rw_branches .zero = .ok g ∧ g.na.o = encode (paths rw_branches) ∧ g.na.nname = 4 ∧
      ∀ ino, ia_test g.ia ino = true ↔ ino ∈ [12, 40, 12, 41] := by
  have hok : ∀ b ∈ rw_branches, b.Ok := by
    intro b hb
    simp only [rw_branches, List.mem_cons, List.not_mem_nil, or_false] at hb
    rcases hb with rfl | rfl <;> exact rw_branch_ok (by decide) (by decide) (by decide)
  rcases arrays_hold_collected rw_branches hok (by decide +kernel) with
    ⟨⟨b, hb, hfails⟩, -⟩ | ⟨g, hg, ⟨ho, hn, -⟩, -, -, -, htest⟩
  · simp only [rw_branches, List.mem_cons, List.not_mem_nil, or_false] at hb
    rcases hb with rfl | rfl <;> exact absurd hfails (rw_branch_works _ _)
  · have hinos : inos rw_branches = [12, 40, 12, 41] := by decide +kernel
    exact ⟨g, hg, ho, hn, hinos ▸ htest⟩

end AufsUtil.Plink.Blocks
