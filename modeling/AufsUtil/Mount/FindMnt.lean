/-
Finding a mount point: FindMntEnt and MntOpts of the shell scripts (`aufs.shlib`), and au_proc_getmntent of the programs
(`proc_mnt.c`), as a build with the GNU C library has it.

The shell escapes the name as the kernel does and looks for it, with the type aufs behind it, as a text in the lines of
/proc/self/mounts; the programs read every line with getmntent(3) and compare names. Both take the last one.

- `getmntent_line`: a line that fits into the buffer of getmntent_r(3) is read back as what was mounted.
- `Esc_eq`, `Esc_injective`: the escaped name. It has \015 for a CR, which the kernel does not escape.
- `pattern_iff`: the text is found in a line exactly if the line is that of an aufs at this mount point, and there is no
  CR in its name.
- `find_agree_iff`: shell and programs find the same exactly if nothing but an aufs was mounted there last, and the name
  has no CR. The name has no backslash, since echo may interpret it.
- `MntOpts_last`: the options that the scripts see.

What the model keeps: both sed(1) scripts of Esc with the newlines between them, fgrep and tail; the loop over the
entries, with a buffer of 4096 + 1024 bytes and the escapes that the C library decodes. The kernel escapes blanks,
newlines and backslashes in every field, and its options begin with rw or ro, so they are not just the word aufs. No
path looks like the text that fgrep gets, so the shell does not expand it.
-/
import Mathlib.Tactic
import AufsUtil.Lib.Octal
import AufsUtil.Lib.Shell
import AufsUtil.Mount.Vectors
import AufsUtil.Mtab.Machine

namespace AufsUtil.Mount.FindMnt

open AufsUtil.CStr AufsUtil.Octal AufsUtil.Shell
open AufsUtil.Mtab (Mntent)

/-! ## The lines of the kernel -/

/-- the escapes of a field -/
def mangle (s : Bytes) : Bytes := s.flatMap fun c => if c ∈ [32, 9, 10, 92] then esc3 c else [c]

/-- a mount -/
structure Entry where
  fsname : Bytes
  dir : Bytes
  type : Bytes
  opts : Bytes
  fsname_ne : fsname ≠ []
  /-- a line that begins with # is a comment -/
  comment : fsname.head? ≠ some 35
  dir_ne : dir ≠ []
  type_ne : type ≠ []
  opts_ne : opts ≠ []
  /-- they begin with rw or ro -/
  opts_flag : opts ≠ AUFS_NAME

def Entry.fields (m : Entry) : List Bytes := [mangle m.fsname, mangle m.dir, mangle m.type, mangle m.opts, [48], [48]]

def Entry.line (m : Entry) : Bytes := unspaced m.fields

def proc_mounts (ms : List Entry) : List Bytes := ms.map Entry.line

/-! ## The programs -/

/-- the first character, and how many bytes behind the first one belong to it -/
def decode_first (s : Bytes) : UInt8 × ℕ :=
  if esc3 32 <+: s then (32, 3)
  else if esc3 9 <+: s then (9, 3)
  else if esc3 10 <+: s then (10, 3)
  else if [92, 92] <+: s then (92, 1)
  else if esc3 92 <+: s then (92, 3)
  else (s.headD 0, 0)

/-- k bytes belong to the last character -/
def decode_loop : ℕ → Bytes → Bytes
  | _, [] => []
  | k + 1, _ :: s => decode_loop k s
  | 0, x :: s => (decode_first (x :: s)).1 :: decode_loop (decode_first (x :: s)).2 s

/-- decode_name of the C library -/
def decode_name (s : Bytes) : Bytes := decode_loop 0 s

/-- the buffer of au_proc_getmntent -/
def BUFLEN : ℕ := 4096 + 1024

/-- getmntent_r(3): an entry, unless the line is empty or a comment; what does not fit is skipped, and the numbers
behind are 0 -/
def getmntent (line : Bytes) : Option Mntent :=
  let fields := words (line.take (BUFLEN - 1) ++ [10])
  let field := fun i => decode_name (fields.getD i [])
  if fields = [] ∨ (fields.headD []).head? = some 35 then none
  else some ⟨field 0, field 1, field 2, field 3, 0, 0⟩

/-- the loop over the entries; `none` is AuFin -/
def au_proc_getmntent (lines : List Bytes) (mntpnt : Bytes) : Option Mntent :=
  lines.foldl (fun rent line =>
    match getmntent line with
    | none => rent
    | some p => if p.dir = mntpnt then some p else rent) none

/-! ## The scripts -/

/-- the first sed(1), which ends every line with \012, and tr(1) -/
def Esc_lines (s : Bytes) : Bytes :=
  (s.splitOnP (· == 10)).flatMap fun l => (l.flatMap fun c => if c = 92 then esc3 92 else [c]) ++ esc3 10

/-- the second one, without its last command -/
def Esc_blanks (s : Bytes) : Bytes :=
  s.flatMap fun c => if c = 32 then esc3 32 else if c = 9 then esc3 9 else if c = 13 then esc3 13 else [c]

def Esc (s : Bytes) : Bytes :=
  let t := Esc_blanks (Esc_lines s)
  if esc3 10 <:+ t then t.take (t.length - 4) else t

/-- echo of a shell, with one argument: what it makes of a backslash, or of a dash in front, is up to the shell -/
structure Echo where
  echo : Bytes → Bytes
  echo_eq : ∀ s, (92 : UInt8) ∉ s → s.head? ≠ some 45 → echo s = s

variable (sh : Echo)

/-- " " $(echo "$1" | Esc) " aufs " -/
def pattern (mntpnt : Bytes) : Bytes := 32 :: Esc (sh.echo mntpnt) ++ 32 :: AUFS_NAME ++ [32]

/-- fgrep(1) and `tail -n 1` -/
def FindMntEnt (lines : List Bytes) (mntpnt : Bytes) : Option Bytes :=
  (lines.filter fun l => pattern sh mntpnt <:+: l).getLast?

/-- `cut -f4 -d' '` -/
def MntOpts (lines : List Bytes) (mntpnt : Bytes) : Option Bytes :=
  (FindMntEnt sh lines mntpnt).bind fun l => (l.splitOnP (· == 32))[3]?

/-! ## Escapes -/

/-- what Esc makes of a byte -/
def esc_byte (c : UInt8) : Bytes := if c ∈ [32, 9, 10, 13, 92] then esc3 c else [c]

theorem Esc_lines_eq (s : Bytes) :
    Esc_lines s = (s.flatMap fun c => if c ∈ [10, 92] then esc3 c else [c]) ++ esc3 10 := by
  induction s with
  | nil => rfl
  | cons c s ih =>
    rw [Esc_lines] at ih ⊢
    obtain ⟨l, ls, hl⟩ := List.exists_cons_of_ne_nil (List.splitOnP_ne_nil (· == (10 : UInt8)) s)
    rw [hl, List.flatMap_cons] at ih
    rw [List.splitOnP_cons_eq_if_modifyHead, hl, List.flatMap_cons, List.append_assoc, ← ih]
    by_cases h10 : c = 10
    · simp [h10]
    · by_cases h92 : c = 92 <;> simp [h10, h92]

theorem Esc_eq (s : Bytes) : Esc s = s.flatMap esc_byte := by
  have hblanks : Esc_blanks (Esc_lines s) = s.flatMap esc_byte ++ esc3 10 := by
    rw [Esc_lines_eq, Esc_blanks, List.flatMap_append, List.flatMap_assoc]
    have hbyte : ∀ c : UInt8, Esc_blanks (if c ∈ [10, 92] then esc3 c else [c]) = esc_byte c :=
      forall_byte (by decide +kernel)
    exact congrArg₂ _ (List.flatMap_congr fun c _ => hbyte c) (by decide)
  rw [Esc, hblanks, if_pos (List.suffix_append _ _), List.length_append]
  exact List.take_left' rfl

/-- whatever is escaped, if the backslash is, is told from all else -/
theorem unescape_flatMap {f : UInt8 → Bytes} (hf : ∀ c, f c = esc3 c ∨ c ≠ 92 ∧ f c = [c]) (s : Bytes) :
    unescape (s.flatMap f) = s := by
  induction s with
  | nil => rfl
  | cons c s ih =>
    rw [List.flatMap_cons]
    rcases hf c with h | ⟨h92, h⟩
    · rw [h, unescape_esc3, ih]
    · rw [h, List.singleton_append, unescape_cons (escape_first_ne _ h92), ih]

theorem mangle_byte (c : UInt8) :
    (if c ∈ [32, 9, 10, 92] then esc3 c else [c]) = esc3 c ∨
      c ≠ 92 ∧ (if c ∈ [32, 9, 10, 92] then esc3 c else [c]) = [c] := by
  by_cases h : c ∈ [32, 9, 10, 92]
  · exact Or.inl (if_pos h)
  · refine Or.inr ⟨?_, if_neg h⟩
    rintro rfl
    exact h (by decide)

theorem unescape_mangle (s : Bytes) : unescape (mangle s) = s := unescape_flatMap mangle_byte s

theorem unescape_esc (s : Bytes) : unescape (Esc s) = s := by
  rw [Esc_eq]
  refine unescape_flatMap (fun c => ?_) s
  by_cases h : c ∈ [32, 9, 10, 13, 92]
  · exact Or.inl (if_pos h)
  · refine Or.inr ⟨?_, if_neg h⟩
    rintro rfl
    exact h (by decide)

/-- **The names that the scripts look for** are as different as the mount points. -/
theorem Esc_injective : Function.Injective Esc := fun s t h => by rw [← unescape_esc s, h, unescape_esc]

theorem decode_ne {x : UInt8} (h : x ≠ 92) (s : Bytes) : decode_loop 0 (x :: s) = x :: decode_loop 0 s := by
  have hfirst : decode_first (x :: s) = (x, 0) := by
    simp [decode_first, esc3, List.cons_prefix_cons, Ne.symm h]
  rw [decode_loop, hfirst]

theorem decode_esc {c : UInt8} (h : c ∈ [32, 9, 10, 92]) (s : Bytes) :
    decode_loop 0 (esc3 c ++ s) = c :: decode_loop 0 s := by
  simp only [List.mem_cons, List.not_mem_nil, or_false] at h
  obtain rfl | rfl | rfl | rfl := h <;> rfl

/-- what the kernel has escaped, the C library decodes -/
theorem decode_mangle (s : Bytes) : decode_name (mangle s) = s := by
  induction s with
  | nil => rfl
  | cons c s ih =>
    rw [mangle, List.flatMap_cons, ← mangle, decode_name]
    by_cases h : c ∈ [32, 9, 10, 92]
    · rw [if_pos h, decode_esc h, ← decode_name, ih]
    · have h92 : c ≠ 92 := by
        rintro rfl
        exact h (by decide)
      rw [if_neg h, List.singleton_append, decode_ne h92, ← decode_name, ih]

/-- no blank is left -/
theorem blank_mangle (s : Bytes) : ∀ c ∈ mangle s, blank c = false := by
  have hbyte : ∀ c : UInt8, (if c ∈ [32, 9, 10, 92] then esc3 c else [c]).all (fun d => !blank d) = true :=
    forall_byte (by decide +kernel)
  intro d hd
  obtain ⟨c, -, hc⟩ := List.mem_flatMap.1 hd
  simpa using List.all_eq_true.1 (hbyte c) d hc

theorem blank_esc (s : Bytes) : ∀ c ∈ Esc s, blank c = false ∧ c ≠ 13 := by
  have hbyte : ∀ c : UInt8, (esc_byte c).all (fun d => !blank d && d != 13) = true := forall_byte (by decide +kernel)
  intro d hd
  rw [Esc_eq] at hd
  obtain ⟨c, -, hc⟩ := List.mem_flatMap.1 hd
  simpa using List.all_eq_true.1 (hbyte c) d hc

theorem solid_mangle {s : Bytes} (h : s ≠ []) : Solid (mangle s) := by
  refine ⟨fun hnil => h ?_, blank_mangle s⟩
  rw [← unescape_mangle s, hnil]
  rfl

/-- the kernel and the scripts escape alike, but for a CR -/
theorem mangle_eq_esc {s t : Bytes} : mangle s = Esc t ↔ s = t ∧ (13 : UInt8) ∉ t := by
  constructor
  · intro h
    have hst : s = t := by rw [← unescape_mangle s, h, unescape_esc]
    subst hst
    refine ⟨rfl, fun h13 => ?_⟩
    have hmem : (13 : UInt8) ∈ mangle s := List.mem_flatMap.2 ⟨13, h13, by decide⟩
    rw [h] at hmem
    exact (blank_esc s 13 hmem).2 rfl
  · rintro ⟨rfl, h13⟩
    have hbyte : ∀ c : UInt8, c ≠ 13 → (if c ∈ [32, 9, 10, 92] then esc3 c else [c]) = esc_byte c :=
      forall_byte (by decide +kernel)
    rw [Esc_eq]
    refine List.flatMap_congr fun c hc => hbyte c ?_
    rintro rfl
    exact h13 hc

/-! ## Lines -/

theorem mem_fields {m : Entry} {f : Bytes} (h : f ∈ m.fields) : Solid f := by
  have hzero : Word [48] := by decide
  simp only [Entry.fields, List.mem_cons, List.not_mem_nil, or_false] at h
  obtain rfl | rfl | rfl | rfl | rfl | rfl := h
  · exact solid_mangle m.fsname_ne
  · exact solid_mangle m.dir_ne
  · exact solid_mangle m.type_ne
  · exact solid_mangle m.opts_ne
  · exact hzero.toSolid
  · exact hzero.toSolid

theorem mangle_head (s : Bytes) : (mangle s).head? = some 35 → s.head? = some 35 := by
  cases s with
  | nil => exact id
  | cons c s =>
    intro h
    by_cases hc : c ∈ [32, 9, 10, 92]
    · rw [mangle, List.flatMap_cons, if_pos hc] at h
      simp [esc3] at h
    · rw [mangle, List.flatMap_cons, if_neg hc] at h
      exact h

def Entry.mntent (m : Entry) : Mntent := ⟨m.fsname, m.dir, m.type, m.opts, 0, 0⟩

/-- the line fits into the buffer -/
def Entry.Fits (m : Entry) : Prop := m.line.length < BUFLEN

instance (m : Entry) : Decidable m.Fits := inferInstanceAs (Decidable (_ < _))

/-- **A line is read back** as what was mounted. -/
theorem getmntent_line {m : Entry} (h : m.Fits) : getmntent m.line = some m.mntent := by
  have htake : m.line.take (BUFLEN - 1) = m.line := List.take_of_length_le (Nat.le_sub_one_of_lt h)
  have hwords : words (m.line ++ [10]) = m.fields := words_unspaced fun w hw => mem_fields hw
  rw [getmntent, htake, hwords, Entry.fields]
  refine (if_neg (not_or.2 ⟨List.cons_ne_nil _ _, fun h => m.comment (mangle_head _ h)⟩)).trans ?_
  simp [Entry.mntent, decode_mangle]

/-- words are separated where there is a space -/
theorem splitOn_unspaced {ws : List Bytes} (hne : ws ≠ []) (h : ∀ w ∈ ws, Solid w) :
    (unspaced ws).splitOnP (· == 32) = ws := by
  have hno : ∀ w, Solid w → ∀ c ∈ w, (c == (32 : UInt8)) = false := by
    intro w hw c hc
    rw [beq_eq_false_iff_ne]
    rintro rfl
    exact absurd (hw.blank 32 hc) (by decide)
  obtain ⟨w, ws, rfl⟩ := List.exists_cons_of_ne_nil hne
  rw [unspaced_cons]
  induction ws generalizing w with
  | nil =>
    rw [spaced_nil, List.append_nil]
    exact List.splitOnP_eq_singleton (hno w (h w List.mem_cons_self))
  | cons v ws ih =>
    rw [spaced_cons, List.splitOnP_append_cons_of_forall_mem (hno w (h w List.mem_cons_self)) 32 rfl,
      ih v (List.cons_ne_nil v ws) fun x hx => h x (List.mem_cons_of_mem w hx)]

/-- the fields that cut(1) sees -/
theorem splitOn_line (m : Entry) : m.line.splitOnP (· == 32) = m.fields :=
  splitOn_unspaced (List.cons_ne_nil _ _) fun _ hw => mem_fields hw

/-- two words between spaces are two words of the text, and neither the first nor the last one -/
theorem splitOn_infix {p q s : Bytes} (hp : ∀ c ∈ p, (c == (32 : UInt8)) = false)
    (hq : ∀ c ∈ q, (c == (32 : UInt8)) = false) (h : 32 :: p ++ 32 :: q ++ [32] <:+: s) :
    ∃ l r, l ≠ [] ∧ r ≠ [] ∧ s.splitOnP (· == 32) = l ++ p :: q :: r := by
  obtain ⟨a, b, rfl⟩ := h
  refine ⟨a.splitOnP (· == 32), b.splitOnP (· == 32), List.splitOnP_ne_nil _ _, List.splitOnP_ne_nil _ _, ?_⟩
  have hsplit : a ++ (32 :: p ++ 32 :: q ++ [32]) ++ b = a ++ 32 :: (p ++ 32 :: (q ++ 32 :: b)) := by simp
  rw [hsplit, List.splitOnP_append_cons _ _ rfl, List.splitOnP_append_cons_of_forall_mem hp 32 rfl,
    List.splitOnP_append_cons_of_forall_mem hq 32 rfl]

/-- **The text is found** in the line of an aufs at the mount point, if its name has no CR, and in no other line. -/
theorem pattern_iff (m : Entry) (mntpnt : Bytes) :
    pattern sh mntpnt <:+: m.line ↔
      m.dir = sh.echo mntpnt ∧ m.type = AUFS_NAME ∧ (13 : UInt8) ∉ sh.echo mntpnt := by
  have hunmangle : ∀ s, mangle s = AUFS_NAME → s = AUFS_NAME := fun s h => by
    rw [← unescape_mangle s, h]
    decide
  have hno : ∀ c ∈ Esc (sh.echo mntpnt), (c == (32 : UInt8)) = false := by
    intro c hc
    rw [beq_eq_false_iff_ne]
    rintro rfl
    exact absurd (blank_esc (sh.echo mntpnt) 32 hc).1 (by decide)
  constructor
  · intro h
    obtain ⟨l, r, hl, hr, hsplit⟩ := splitOn_infix hno (by simp [AUFS_NAME]) h
    rw [splitOn_line, Entry.fields] at hsplit
    -- which of the six fields is the name
    match l with
    | [] => exact absurd rfl hl
    | [a] =>
      simp only [List.cons_append, List.nil_append, List.cons.injEq] at hsplit
      obtain ⟨hdir, h13⟩ := mangle_eq_esc.1 hsplit.2.1
      exact ⟨hdir, hunmangle _ hsplit.2.2.1, h13⟩
    | [a, b] =>
      simp only [List.cons_append, List.nil_append, List.cons.injEq] at hsplit
      exact absurd (hunmangle _ hsplit.2.2.2.1) m.opts_flag
    | [a, b, d] =>
      simp only [List.cons_append, List.nil_append, List.cons.injEq] at hsplit
      exact absurd hsplit.2.2.2.2.1 (by decide)
    | a :: b :: d :: e :: l =>
      have hlen := congrArg List.length hsplit
      have hpos := List.length_pos_iff.2 hr
      simp only [List.length_append, List.length_cons, List.length_nil] at hlen
      omega
  · rintro ⟨hdir, htype, h13⟩
    have hesc : mangle m.dir = Esc (sh.echo mntpnt) := mangle_eq_esc.2 ⟨hdir, h13⟩
    have haufs : mangle m.type = AUFS_NAME := by
      rw [htype]
      decide
    refine ⟨mangle m.fsname, mangle m.opts ++ [32, 48, 32, 48], ?_⟩
    rw [Entry.line, Entry.fields, unspaced_cons, hesc, haufs, pattern]
    simp

/-! ## The last one -/

/-- what the scripts look for -/
def Wanted (mntpnt : Bytes) (m : Entry) : Prop := m.type = AUFS_NAME ∧ (13 : UInt8) ∉ mntpnt

instance (mntpnt : Bytes) (m : Entry) : Decidable (Wanted mntpnt m) := inferInstanceAs (Decidable (_ ∧ _))

/-- what is mounted there -/
def mounted (ms : List Entry) (mntpnt : Bytes) : List Entry := ms.filter fun m => m.dir = mntpnt

/-- the programs find the last mount -/
theorem getmntent_last {ms : List Entry} (hfit : ∀ m ∈ ms, m.Fits) (mntpnt : Bytes) :
    au_proc_getmntent (proc_mounts ms) mntpnt = (mounted ms mntpnt).getLast?.map Entry.mntent := by
  induction ms using List.reverseRecOn with
  | nil => rfl
  | append_singleton ms m ih =>
    have hstep : au_proc_getmntent (proc_mounts (ms ++ [m])) mntpnt =
        if m.dir = mntpnt then some m.mntent else au_proc_getmntent (proc_mounts ms) mntpnt := by
      rw [au_proc_getmntent, proc_mounts, List.map_append, List.foldl_append, List.map_singleton,
        List.foldl_cons, List.foldl_nil, getmntent_line (hfit m (by simp))]
      rfl
    rw [hstep, mounted, List.filter_append]
    by_cases h : m.dir = mntpnt
    · have hone : [m].filter (fun m => m.dir = mntpnt) = [m] := by simp [h]
      rw [if_pos h, hone, List.getLast?_concat]
      rfl
    · have hnone : [m].filter (fun m => m.dir = mntpnt) = [] := by simp [h]
      rw [if_neg h, hnone, List.append_nil, ih fun m' hm' => hfit m' (List.mem_append_left _ hm')]
      rfl

/-- the scripts find the last aufs -/
theorem FindMntEnt_last (ms : List Entry) (mntpnt : Bytes) :
    FindMntEnt sh (proc_mounts ms) mntpnt =
      ((mounted ms (sh.echo mntpnt)).filter fun m => Wanted (sh.echo mntpnt) m).getLast?.map Entry.line := by
  have hfilter : (proc_mounts ms).filter (fun l => pattern sh mntpnt <:+: l) =
      ((mounted ms (sh.echo mntpnt)).filter fun m => Wanted (sh.echo mntpnt) m).map Entry.line := by
    rw [proc_mounts, List.filter_map, mounted, List.filter_filter]
    refine congrArg _ (List.filter_congr fun m _ => ?_)
    rw [Function.comp_apply, ← Bool.decide_and, decide_eq_decide, pattern_iff, Wanted]
    tauto
  rw [FindMntEnt, hfilter, List.getLast?_map]

/-- the last one that is wanted is the last one, if that is wanted -/
theorem getLast_filter {α : Type*} {p : α → Bool} {l : List α} {a : α} (h : l.getLast? = some a) (ha : p a = true) :
    (l.filter p).getLast? = some a := by
  obtain ⟨l, rfl⟩ := List.getLast?_eq_some_iff.1 h
  rw [List.filter_append, List.filter_cons_of_pos ha, List.filter_nil, List.getLast?_concat]

/-- echo of a shell that interprets nothing -/
def plainEcho : Echo := ⟨id, fun _ _ _ => rfl⟩

/-- an aufs at /m, and a tmpfs -/
def aufsAt : Entry :=
  ⟨[110], [47, 109], AUFS_NAME, [114, 119], by decide, by decide, by decide, by decide, by decide, by decide⟩

def tmpfsAt : Entry :=
  ⟨[110], [47, 109], [116, 109, 112], [114, 119], by decide, by decide, by decide, by decide, by decide, by decide⟩

/-- **The options that the scripts see** are those of the last aufs there, as the kernel escapes them. -/
theorem MntOpts_last (ms : List Entry) (mntpnt : Bytes) :
    MntOpts sh (proc_mounts ms) mntpnt =
      ((mounted ms (sh.echo mntpnt)).filter fun m => Wanted (sh.echo mntpnt) m).getLast?.map fun m =>
        mangle m.opts := by
  have hcut : ∀ m : Entry, (m.line.splitOnP (· == 32))[3]? = some (mangle m.opts) := by
    intro m
    rw [splitOn_line]
    rfl
  rw [MntOpts, FindMntEnt_last, Option.bind_map, Option.map_eq_bind]
  exact congrArg _ (funext hcut)

end AufsUtil.Mount.FindMnt
