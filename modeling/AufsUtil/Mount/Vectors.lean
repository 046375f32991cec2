/-
The argument vectors of the two mount helpers: do_mount of `mount.aufs.c` and main of `umount.aufs.c`.

Both fill an array on the stack, whose size they count by hand, through a pointer or an index that only goes up, and
hand it to execv(2), which reads pointers up to the NULL.

What the model keeps of C:
- the array is its number of pointers and every store that was made, the last one first, with its index (`Vec`); a store
  behind the array is kept like any other;
- the check behind the stores compares the index of the NULL with the number of pointers, after the NULL was stored;
- the flags of mount.aufs, and what happens in umount.aufs before the vector (the look at the mount table, the flush),
  are inputs.

- `Filled`: what pushing one pointer after the other makes of an array; `push_filled` is the step, `pushes_filled` the
  run of a loop.
- `do_mount_filled`, `umount_filled`: the pointers in the two arrays.
- `vectors_inside_iff`: do_mount has room for its terminator for all flags and arguments, umount.aufs never has.
-/
import Mathlib.Tactic
import AufsUtil.Lib.CStr

namespace AufsUtil.Mount

open AufsUtil.CStr

/-! ## Arrays of pointers -/

structure Vec where
  /-- the pointers that the array has room for -/
  size : ℕ
  stores : List (ℕ × Option Bytes)
  /-- where the next pointer goes -/
  a : ℕ
deriving DecidableEq, Repr

def Vec.new (size : ℕ) : Vec := ⟨size, [], 0⟩

/-- `*a = x` -/
def Vec.put (v : Vec) (x : Option Bytes) : Vec := { v with stores := (v.a, x) :: v.stores }

/-- `*a++ = x` -/
def Vec.push (v : Vec) (x : Bytes) : Vec := { v.put (some x) with a := v.a + 1 }

def Vec.inside (v : Vec) : Prop := ∀ s ∈ v.stores, s.1 < v.size

instance (v : Vec) : Decidable v.inside := inferInstanceAs (Decidable (∀ s ∈ v.stores, s.1 < v.size))

/-- the pointer at index k; NULL, and what was never stored, is `none` -/
def Vec.read (v : Vec) (k : ℕ) : Option Bytes := (v.stores.lookup k).join

/-- what execv(2) takes: n pointers at most from index k on, up to the NULL -/
def Vec.strings (v : Vec) : ℕ → ℕ → List Bytes
  | 0, _ => []
  | n + 1, k =>
    match v.read k with
    | none => []
    | some x => x :: v.strings n (k + 1)

def Vec.args (v : Vec) : List Bytes := v.strings v.stores.length 0

/-- how a helper ends: AuFin, or execv of the vector -/
inductive Exit where
  | fin
  | exec (v : Vec)
deriving DecidableEq, Repr

/-! ## mount.aufs -/

/-- "mount", "umount", "aufs", "-i", "-f", "-n", "-v", "-t" -/
def MOUNT : Bytes := [109, 111, 117, 110, 116]
def UMOUNT : Bytes := [117, 109, 111, 117, 110, 116]
def AUFS_NAME : Bytes := [97, 117, 102, 115]
def OPT_i : Bytes := [45, 105]
def OPT_f : Bytes := [45, 102]
def OPT_n : Bytes := [45, 110]
def OPT_v : Bytes := [45, 118]
def OPT_t : Bytes := [45, 116]

/-- the entries of flags[] that do_mount looks at -/
structure Flags where
  Bind : Bool
  Fake : Bool
  Update : Bool
  Verbose : Bool
deriving DecidableEq, Repr

/-- the options of mount(8) that are handled apart -/
def dropped (x : Bytes) : Bool := x == OPT_f || x == OPT_n || x == OPT_v

def mount_loop (v : Vec) (argv : List Bytes) : Vec := argv.foldl (fun v x => if dropped x then v else v.push x) v

/-- the array of do_mount, with its terminator -/
def mount_av (dev mntpnt : Bytes) (argv : List Bytes) (flags : Flags) : Vec :=
  let v := ((Vec.new (argv.length + 7)).push MOUNT).push OPT_i
  let v := if flags.Fake then v.push OPT_f else v
  let v := if !flags.Bind || !flags.Update then v.push OPT_n else v
  let v := if flags.Bind && flags.Verbose then v.push OPT_v else v
  let v := (v.push OPT_t).push AUFS_NAME
  let v := mount_loop v (argv.drop 3)
  ((v.push dev).push mntpnt).put none

def do_mount (dev mntpnt : Bytes) (argv : List Bytes) (flags : Flags) : Exit :=
  let v := mount_av dev mntpnt argv flags
  if v.size < v.a then .fin else .exec v

/-! ## umount.aufs -/

/-- is the mount point in the table, has it the option noplink, does the flush succeed -/
structure Umounted where
  found : Bool
  noplink : Bool
  flush : Bool

def umount_loop (v : Vec) (argv : List Bytes) : Vec := argv.foldl Vec.push v

/-- the array of main of umount.aufs, with its terminator -/
def umount_av (mntpnt : Bytes) (argv : List Bytes) : Vec :=
  let v := ((Vec.new (argv.length + 1)).push UMOUNT).push OPT_i
  let v := umount_loop v (argv.drop 2)
  (v.push mntpnt).put none

def umount_main (sys : Umounted) (argv : List Bytes) : Exit :=
  match argv[1]? with
  | none => .fin
  | some mntpnt =>
    if !sys.found then .fin
    else if !sys.noplink && !sys.flush then .fin
    else
      let v := umount_av mntpnt argv
      if v.size < v.a then .fin else .exec v

/-! ## Filling an array from its start -/

/-- the pointers xs were stored one after the other from index 0 on, and nothing else was -/
structure Filled (v : Vec) (n : ℕ) (xs : List Bytes) : Prop where
  size : v.size = n
  a : v.a = xs.length
  count : v.stores.length = xs.length
  index : ∀ s ∈ v.stores, s.1 < xs.length
  read : ∀ k, v.stores.lookup k = xs[k]?.map some

theorem Filled.cast {v : Vec} {n : ℕ} {xs ys : List Bytes} (h : Filled v n xs) (heq : xs = ys) : Filled v n ys :=
  heq ▸ h

theorem new_filled (n : ℕ) : Filled (Vec.new n) n [] :=
  ⟨rfl, rfl, rfl, fun _ hs => absurd hs List.not_mem_nil, fun _ => rfl⟩

theorem push_filled {v : Vec} {n : ℕ} {xs : List Bytes} (h : Filled v n xs) (x : Bytes) :
    Filled (v.push x) n (xs ++ [x]) := by
  refine ⟨h.size, by simp [Vec.push, h.a], by simp [Vec.push, Vec.put, h.count], ?_, ?_⟩
  · intro s hs
    rw [List.length_append, List.length_singleton]
    rcases List.mem_cons.1 hs with rfl | hs
    · simp [h.a]
    · exact Nat.lt_succ_of_lt (h.index s hs)
  · intro k
    simp only [Vec.push, Vec.put, List.lookup_cons, h.a, h.read]
    rcases Nat.lt_trichotomy k xs.length with hk | rfl | hk
    · rw [beq_false_of_ne (by omega), List.getElem?_append_left hk]
    · rw [beq_self_eq_true, List.getElem?_append_right le_rfl]
      simp
    · rw [beq_false_of_ne (by omega), List.getElem?_append_right (by omega), List.getElem?_eq_none (by omega),
        List.getElem?_eq_none (by simp; omega)]

/-- an optional pointer -/
theorem push_if_filled {v : Vec} {n : ℕ} {xs : List Bytes} (h : Filled v n xs) (c : Bool) (x : Bytes) :
    Filled (if c then v.push x else v) n (xs ++ if c then [x] else []) := by
  cases c with
  | true => exact push_filled h x
  | false =>
    rw [if_neg Bool.false_ne_true, if_neg Bool.false_ne_true, List.append_nil]
    exact h

/-- a loop that pushes the strings it does not skip -/
theorem pushes_filled {v : Vec} {n : ℕ} {xs : List Bytes} (h : Filled v n xs) (skip : Bytes → Bool) (ys : List Bytes) :
    Filled (ys.foldl (fun v y => if skip y then v else v.push y) v) n (xs ++ ys.filter fun y => !skip y) := by
  induction ys generalizing v xs with
  | nil =>
    rw [List.filter_nil, List.append_nil]
    exact h
  | cons y ys ih =>
    rw [List.foldl_cons]
    cases hy : skip y with
    | true =>
      rw [List.filter_cons_of_neg (by simp [hy])]
      exact ih h
    | false =>
      rw [List.filter_cons_of_pos (by simp [hy]), List.append_cons]
      exact ih (push_filled h y)

/-! ## Behind the terminator -/

theorem put_inside_iff {v : Vec} {n : ℕ} {xs : List Bytes} (h : Filled v n xs) :
    (v.put none).inside ↔ xs.length < n := by
  constructor
  · intro hin
    have hnul := hin (v.a, none) List.mem_cons_self
    rwa [h.a, Vec.put, h.size] at hnul
  · intro hn s hs
    rw [Vec.put, h.size]
    rcases List.mem_cons.1 hs with rfl | hs
    · rw [h.a]
      exact hn
    · exact (h.index s hs).trans hn

theorem strings_put {v : Vec} {n : ℕ} {xs : List Bytes} (h : Filled v n xs) (m k : ℕ) (hm : xs.length < k + m) :
    (v.put none).strings m k = xs.drop k := by
  have hread : ∀ k, (v.put none).read k = xs[k]? := by
    intro k
    simp only [Vec.read, Vec.put, List.lookup_cons, h.a, h.read]
    by_cases hk : k = xs.length
    · rw [hk, beq_self_eq_true, List.getElem?_eq_none le_rfl]
      rfl
    · rw [beq_false_of_ne hk]
      cases xs[k]? <;> rfl
  induction m generalizing k with
  | zero =>
    rw [List.drop_of_length_le (by omega)]
    rfl
  | succ m ih =>
    rw [Vec.strings, hread]
    by_cases hk : k < xs.length
    · rw [List.getElem?_eq_getElem hk, ih (k + 1) (by omega), List.drop_eq_getElem_cons hk]
    · rw [List.getElem?_eq_none (by omega), List.drop_of_length_le (by omega)]

/-- execv reads the pointers in front of the terminator -/
theorem args_put {v : Vec} {n : ℕ} {xs : List Bytes} (h : Filled v n xs) : (v.put none).args = xs := by
  have hlen : (v.put none).stores.length = xs.length + 1 := by rw [Vec.put, List.length_cons, h.count]
  rw [Vec.args, strings_put h _ 0 (by omega), List.drop_zero]

/-! ## The two vectors -/

/-- what do_mount puts in front of the arguments it passes on -/
def mount_head (flags : Flags) : List Bytes :=
  [MOUNT, OPT_i] ++ (if flags.Fake then [OPT_f] else []) ++ (if !flags.Bind || !flags.Update then [OPT_n] else []) ++
    (if flags.Bind && flags.Verbose then [OPT_v] else []) ++ [OPT_t, AUFS_NAME]

theorem length_mount_head (flags : Flags) : (mount_head flags).length ≤ 7 := by
  obtain ⟨b, f, u, w⟩ := flags
  revert b f u w
  decide

/-- the strings of do_mount -/
def mount_args (dev mntpnt : Bytes) (argv : List Bytes) (flags : Flags) : List Bytes :=
  mount_head flags ++ (argv.drop 3).filter (fun x => !dropped x) ++ [dev, mntpnt]

def umount_args (mntpnt : Bytes) (argv : List Bytes) : List Bytes := [UMOUNT, OPT_i] ++ argv.drop 2 ++ [mntpnt]

theorem do_mount_filled (dev mntpnt : Bytes) (argv : List Bytes) (flags : Flags) :
    ∃ v, mount_av dev mntpnt argv flags = v.put none ∧
      Filled v (argv.length + 7) (mount_args dev mntpnt argv flags) := by
  refine ⟨_, rfl, ?_⟩
  have hbase := push_filled (push_filled (new_filled (argv.length + 7)) MOUNT) OPT_i
  have hfake := push_if_filled hbase flags.Fake OPT_f
  have hnomtab := push_if_filled hfake (!flags.Bind || !flags.Update) OPT_n
  have hverbose := push_if_filled hnomtab (flags.Bind && flags.Verbose) OPT_v
  have htype := push_filled (push_filled hverbose OPT_t) AUFS_NAME
  have hrest := pushes_filled htype dropped (argv.drop 3)
  have hall := push_filled (push_filled hrest dev) mntpnt
  exact hall.cast (by simp [mount_args, mount_head])

theorem umount_filled (mntpnt : Bytes) (argv : List Bytes) :
    ∃ v, umount_av mntpnt argv = v.put none ∧ Filled v (argv.length + 1) (umount_args mntpnt argv) := by
  refine ⟨_, rfl, ?_⟩
  have hbase := push_filled (push_filled (new_filled (argv.length + 1)) UMOUNT) OPT_i
  have hrest := pushes_filled hbase (fun _ => false) (argv.drop 2)
  exact (push_filled hrest mntpnt).cast (by simp [umount_args])

theorem length_mount_args (dev mntpnt : Bytes) {argv : List Bytes} (flags : Flags) (h : 3 ≤ argv.length) :
    (mount_args dev mntpnt argv flags).length ≤ argv.length + 6 := by
  have hkept := List.length_filter_le (fun x => !dropped x) (argv.drop 3)
  have hhead := length_mount_head flags
  rw [List.length_drop] at hkept
  rw [mount_args, List.length_append, List.length_append]
  simp only [List.length_cons, List.length_nil]
  omega

/-! ## Room for the terminator -/

/-- do_mount stores inside of its array, and runs mount(8) with every argument behind the first two but "-f", "-n" and
"-v", in order -/
def MountFits (dev mntpnt : Bytes) (argv : List Bytes) (flags : Flags) : Prop :=
  ∃ v, do_mount dev mntpnt argv flags = .exec v ∧ v.inside ∧
    v.args = mount_head flags ++ (argv.drop 3).filter (fun x => !dropped x) ++ [dev, mntpnt]

/-- main of umount.aufs stores inside of its array, and runs umount(8) with every argument behind the mount point, in
order, and the mount point -/
def UmountFits (mntpnt : Bytes) (argv : List Bytes) : Prop :=
  ∀ sys v, umount_main sys argv = .exec v →
    v.inside ∧ v.args = [UMOUNT, OPT_i] ++ argv.drop 2 ++ [mntpnt]

/-- a flush that succeeds on a mount point that is there -/
def flushed : Umounted := ⟨true, false, true⟩

theorem umount_exec {sys : Umounted} {argv : List Bytes} {v : Vec} (h : umount_main sys argv = .exec v) :
    ∃ mntpnt, argv[1]? = some mntpnt ∧ v = umount_av mntpnt argv := by
  unfold umount_main at h
  split at h
  · cases h
  · rename_i mntpnt hm
    split_ifs at h
    simp only at h
    split_ifs at h
    injection h with h
    exact ⟨mntpnt, hm, h.symm⟩

/-- umount.aufs comes to execv with its terminator one behind the array -/
theorem umount_runs {mntpnt : Bytes} {argv : List Bytes} (hm : argv[1]? = some mntpnt) :
    umount_main flushed argv = .exec (umount_av mntpnt argv) ∧ ¬ (umount_av mntpnt argv).inside := by
  obtain ⟨v, hv, hfill⟩ := umount_filled mntpnt argv
  have hargc : 1 < argv.length := (List.getElem?_eq_some_iff.1 hm).1
  have hlen : (umount_args mntpnt argv).length = argv.length + 1 := by
    simp only [umount_args, List.length_append, List.length_cons, List.length_nil, List.length_drop]
    omega
  constructor
  · have hcheck : ¬ (umount_av mntpnt argv).size < (umount_av mntpnt argv).a := by
      rw [hv, Vec.put, hfill.size, hfill.a, hlen]
      exact Nat.lt_irrefl _
    simp [umount_main, hm, flushed, hcheck]
  · rw [hv, put_inside_iff hfill, hlen]
    exact Nat.lt_irrefl _

/-- **Room for the terminator.** do_mount has it for every argument vector and all flags; umount.aufs has it for none.
Both pass on what they should. -/
theorem vectors_inside_iff (argv : List Bytes) (dev mntpnt : Bytes) (flags : Flags) :
    (3 ≤ argv.length → MountFits dev mntpnt argv flags) ∧
      (argv[1]? = some mntpnt → (¬ UmountFits mntpnt argv) ∧
        ∀ sys v, umount_main sys argv = .exec v →
          ¬ v.inside ∧ v.args = [UMOUNT, OPT_i] ++ argv.drop 2 ++ [mntpnt]) := by
  constructor
  · intro hargc
    obtain ⟨v, hv, hfill⟩ := do_mount_filled dev mntpnt argv flags
    have hlen := length_mount_args dev mntpnt flags hargc
    refine ⟨v.put none, ?_, (put_inside_iff hfill).2 (by omega), args_put hfill⟩
    have hcheck : ¬ (v.put none).size < (v.put none).a := by
      rw [Vec.put, hfill.size, hfill.a]
      omega
    rw [do_mount, hv]
    exact if_neg hcheck
  · intro hm
    obtain ⟨hrun, hout⟩ := umount_runs hm
    refine ⟨fun hfits => hout (hfits flushed _ hrun).1, ?_⟩
    intro sys v hexec
    obtain ⟨mntpnt', hm', rfl⟩ := umount_exec hexec
    rw [hm, Option.some.injEq] at hm'
    subst hm'
    obtain ⟨v, hv, hfill⟩ := umount_filled mntpnt argv
    exact ⟨hout, by rw [hv]; exact args_put hfill⟩

/-- "umount.aufs /m": the array has three pointers and the terminator goes to index 3 -/
theorem umount_terminator :
    ¬ UmountFits [47, 109] [UMOUNT, [47, 109]] ∧
      (umount_av [47, 109] [UMOUNT, [47, 109]]).stores.head? = some (3, none) ∧
      (umount_av [47, 109] [UMOUNT, [47, 109]]).size = 3 := by
  refine ⟨fun h => ?_, by decide, by decide⟩
  have hin := (h flushed (umount_av [47, 109] [UMOUNT, [47, 109]]) (by decide)).1
  exact absurd hin (by decide)

end AufsUtil.Mount
