/-
The tree walk of a non-glibc build (`extlib/non-glibc/au_nftw.c`) and the callbacks that auplink gives it (`plink.c`).

auplink walks the mount point and skips the directory of the pseudo-links, AUFS_WH_PLINKDIR: its callbacks return
FTW_SKIP_SUBTREE there. au_nftw turns that into FTW_CONTINUE when FTW_ACTIONRETVAL is among its flags, and returns any
other non-zero value of the callback to its caller, which ends the walk. The flag is a macro that two headers define:
`Macros` is what a translation unit has of it after its #include lines.

- `plink_flags_bits`: in plink.c the flag is 0 and in au_nftw.c it is 16, so au_nftw does not see it, and
  FTW_SKIP_SUBTREE ends the walk.
- `do_nftw_play`: the walk is what the file system shows it (`trail`), played to the first callback that does not return
  0; the shared path buffer is as before whenever a level returns 0.

What the model keeps of C: paths are the strings in the one buffer (`path[j]='/'; strcpy(path+j+1, de->d_name)`,
`path[l] = 0`); every system call gets such a string and its answer is an input (`World`); the history of ancestors, the
descriptor limit, the length checks, and the flags. AuFin (a failing chown) ends the process. Left out: errno after the
walk, and the cancel state of the thread.
-/
import Mathlib.Tactic
import AufsUtil.Lib.CStr

namespace AufsUtil.Plink

open AufsUtil.CStr

/-! ## The macros -/

/-- FTW_ACTIONRETVAL, FTW_CONTINUE and FTW_SKIP_SUBTREE as far as they are defined -/
structure Macros where
  actionretval : Option ℕ
  cont : Option ℕ
  skip_subtree : Option ℕ
deriving DecidableEq, Repr

/-- ftw.h of a C library without the GNU extension -/
def ftw_h : Macros := ⟨none, none, none⟩

/-- au_util.h: `#define FTW_ACTIONRETVAL 0` -/
def au_util_h (m : Macros) : Macros := { m with actionretval := some 0 }

/-- au_nftw.h: what is not defined by now gets its default, unless all three are there -/
def au_nftw_h (m : Macros) : Macros :=
  if m.actionretval.isSome && m.cont.isSome && m.skip_subtree.isSome then m
  else ⟨some (m.actionretval.getD 16), some (m.cont.getD 0), some (m.skip_subtree.getD 2)⟩

/-- plink.c includes au_util.h, then au_nftw.h -/
def plink_c : Macros := au_nftw_h (au_util_h ftw_h)

/-- au_nftw.c includes au_nftw.h only -/
def au_nftw_c : Macros := au_nftw_h ftw_h

def FTW_PHYS : ℕ := 1
def FTW_MOUNT : ℕ := 2
def FTW_DEPTH : ℕ := 8

/-- the flags that do_plink passes, in the macros of plink.c -/
def plink_flags : ℕ := FTW_PHYS ||| FTW_MOUNT ||| plink_c.actionretval.getD 0

/-! ## The file system -/

inductive Errno where
  | eacces
  | enoent
  | other
deriving DecidableEq, Repr

inductive Mode where
  | dir
  | lnk
  | other
deriving DecidableEq, Repr

structure Stat where
  dev : ℕ
  ino : ℕ
  mode : Mode
deriving DecidableEq, Repr

/-- what the system calls answer for each path. `names` are those readdir returns until it returns NULL, "." and ".."
included; `junk` is what struct stat holds when lstat failed. -/
structure World where
  lstat : Bytes → Except Errno Stat
  stat : Bytes → Except Errno Stat
  junk : Bytes → Stat
  readable : Bytes → Bool
  opendir : Bytes → Except Errno (List Bytes)

def PATH_MAX : ℕ := 4096

/-! ## au_nftw -/

/-- the third argument of the callback -/
inductive Typeflag where
  | F
  | D
  | DNR
  | NS
  | SL
  | DP
  | SLN
deriving DecidableEq, Repr

/-- struct history without the chain; the chain is a list, the parent first -/
structure History where
  dev : ℕ
  ino : ℕ
  level : ℕ
  base : ℕ
deriving DecidableEq, Repr

/-- the arguments of one call of the callback; level and base are struct FTW -/
structure Call where
  path : Bytes
  st : Stat
  type : Typeflag
  level : ℕ
  base : ℕ
deriving DecidableEq, Repr

/-- a function returns, or the process ends in AuFin -/
inductive Ret where
  | ret (r : ℤ)
  | fin
deriving DecidableEq, Repr

/-- what a level of the walk returns, the path buffer it leaves, the calls it made -/
structure Walk where
  ret : Ret
  path : Bytes
  calls : List Call

def has (flags flag : ℕ) : Bool := flags &&& flag != 0

/-- the first part of do_nftw: struct stat and the type of the node; `none` is `return -1` -/
def node_type (W : World) (flags : ℕ) (path : Bytes) : Option (Stat × Typeflag) :=
  match if has flags FTW_PHYS then W.lstat path else W.stat path with
  | .error e =>
    if !has flags FTW_PHYS && e = .enoent then
      match W.lstat path with
      | .ok st => some (st, .SLN)
      | .error .eacces => some (W.junk path, .NS)
      | .error _ => none
    else if e = .eacces then some (W.junk path, .NS)
    else none
  | .ok st =>
    match st.mode with
    | .dir => some (st, if !W.readable path then .DNR else if has flags FTW_DEPTH then .DP else .D)
    | .lnk => some (st, if has flags FTW_PHYS then .SL else .SLN)
    | .other => some (st, .F)

/-- "." or ".." -/
def dots (d : Bytes) : Bool := d == [46] || d == [46, 46]

/-- the length up to a trailing '/' -/
def trimmed (path : Bytes) : ℕ := if path.getLast? = some 47 then path.length - 1 else path.length

/-- lev.base of the root: `(name=strrchr(path, '/')) ? name-path : 0` -/
def root_base (path : Bytes) : ℕ := (strrchr path 47).getD 0

/-- `path[j]='/'; strcpy(path+j+1, name)` -/
def put_name (path : Bytes) (j : ℕ) (name : Bytes) : Bytes := path.take j ++ 47 :: name

/-- the loop over readdir of a directory whose path had l bytes (j without a trailing '/'); `sub` walks the path
that is in the buffer -/
def readdir_loop (sub : Bytes → Walk) (l j : ℕ) : List Bytes → Bytes → Walk
  | [], path => ⟨.ret 0, path, []⟩
  | d :: ds, path =>
    if dots d then readdir_loop sub l j ds path
    else if d.length ≥ PATH_MAX - l then ⟨.ret (-1), path, []⟩
    else
      let w := sub (put_name path j d)
      if w.ret = .ret 0 then
        let w' := readdir_loop sub l j ds w.path
        { w' with calls := w.calls ++ w'.calls }
      else w

/-- `if ((type == FTW_D || type == FTW_DP) && fd_limit) {..}`; `sub` is none when fd_limit is 0 -/
def nftw_dir (W : World) (sub : Option (Bytes → Walk)) (type : Typeflag) (path : Bytes) : Walk :=
  match sub with
  | none => ⟨.ret 0, path, []⟩
  | some f =>
    if type = .D ∨ type = .DP then
      match W.opendir path with
      | .ok names => readdir_loop f path.length (trimmed path) names path
      | .error .eacces => ⟨.ret 0, path, []⟩
      | .error _ => ⟨.ret (-1), path, []⟩
    else ⟨.ret 0, path, []⟩

/-- the body of do_nftw; `sub` is do_nftw with one descriptor less -/
def nftw_body (W : World) (fn : Call → Ret) (flags : ℕ) (sub : Option (List History → Bytes → Walk)) (h : List History)
    (path : Bytes) : Walk :=
  match node_type W flags path with
  | none => ⟨.ret (-1), path, []⟩
  | some (st, type) =>
    if has flags FTW_MOUNT && h.head?.any fun p => st.dev != p.dev then ⟨.ret 0, path, []⟩
    else
      let level := (h.head?.map fun p => p.level + 1).getD 0
      let new : History := ⟨st.dev, st.ino, level, path.length + 1⟩
      let c : Call := ⟨path, st, type, level, (h.head?.map History.base).getD (root_base path)⟩
      let r := if has flags FTW_DEPTH then .ret 0 else fn c
      let pre := if has flags FTW_DEPTH then [] else [c]
      if r ≠ .ret 0 then
        if has flags (au_nftw_c.actionretval.getD 0) && r = .ret (au_nftw_c.skip_subtree.getD 0) && type = .D then
          ⟨.ret (au_nftw_c.cont.getD 0), path, pre⟩
        else ⟨r, path, pre⟩
      else if h.any fun p => p.dev == st.dev && p.ino == st.ino then ⟨.ret 0, path, pre⟩
      else
        let w := nftw_dir W (sub.map fun f => f (new :: h)) type path
        if w.ret ≠ .ret 0 then { w with calls := pre ++ w.calls }
        else if has flags FTW_DEPTH then ⟨fn c, w.path.take path.length, pre ++ w.calls ++ [c]⟩
        else ⟨.ret 0, w.path.take path.length, pre ++ w.calls⟩

def do_nftw (W : World) (fn : Call → Ret) (flags : ℕ) : ℕ → List History → Bytes → Walk
  | 0 => nftw_body W fn flags none
  | fd_limit + 1 => nftw_body W fn flags (some (do_nftw W fn flags fd_limit))

def au_nftw (W : World) (path : Bytes) (fn : Call → Ret) (fd_limit : ℕ) (flags : ℕ) : Walk :=
  if fd_limit = 0 then ⟨.ret 0, path, []⟩
  else if path.length > PATH_MAX then ⟨.ret (-1), path, []⟩
  else do_nftw W fn flags fd_limit [] path

/-! ## The callbacks of plink.c -/

/-- ".wh..wh.plnk" -/
def AUFS_WH_PLINKDIR : Bytes := [46, 119, 104, 46, 46, 119, 104, 46, 112, 108, 110, 107]

/-- FTW_CONTINUE in plink.c -/
def FTW_CONTINUE : ℤ := plink_c.cont.getD 0

/-- FTW_SKIP_SUBTREE in plink.c -/
def FTW_SKIP_SUBTREE : ℤ := plink_c.skip_subtree.getD 0

theorem macros_of_plink_c : FTW_CONTINUE = 0 ∧ FTW_SKIP_SUBTREE = 2 := by decide

/-- is the number among the collected ones -/
def ia_test (ia : List ℕ) (ino : ℕ) : Bool := ia.contains ino

def ftw_list (_ : List ℕ) (c : Call) : Ret :=
  if c.path.drop c.base = AUFS_WH_PLINKDIR then .ret FTW_SKIP_SUBTREE else .ret FTW_CONTINUE

/-- chown(2) and lchown(2) of a path, for any other mode than a symbolic link and for one; `true` is a return of 0 -/
structure Chown where
  chown : Bytes → Bool
  lchown : Bytes → Bool

def Chown.run (C : Chown) (path : Bytes) (st : Stat) : Bool := if st.mode = .lnk then C.lchown path else C.chown path

def ftw_cpup (C : Chown) (ia : List ℕ) (c : Call) : Ret :=
  if c.path.drop c.base = AUFS_WH_PLINKDIR then .ret FTW_SKIP_SUBTREE
  else if c.type = .D ∨ c.type = .DNR then .ret FTW_CONTINUE
  else if ia_test ia c.st.ino && !C.run c.path c.st then .fin
  else .ret FTW_CONTINUE

/-! ## What the walk meets -/

/-- FTW_PHYS and FTW_MOUNT are set in the flags of do_plink; FTW_DEPTH is not, and neither is the bit that au_nftw.c
knows as FTW_ACTIONRETVAL -/
theorem plink_flags_bits :
    has plink_flags FTW_PHYS = true ∧ has plink_flags FTW_MOUNT = true ∧ has plink_flags FTW_DEPTH = false ∧
      has plink_flags (au_nftw_c.actionretval.getD 0) = false := by decide

inductive Event where
  | call (c : Call)
  /-- a level returns -1 -/
  | fail
deriving DecidableEq, Repr

/-- the entries of a directory, one after the other -/
def trail_names (sub : Bytes → List Event) (path : Bytes) : List Bytes → List Event
  | [] => []
  | d :: ds =>
    if dots d then trail_names sub path ds
    else if d.length ≥ PATH_MAX - path.length then [.fail]
    else sub (put_name path (trimmed path) d) ++ trail_names sub path ds

def trail_dir (W : World) (sub : Option (Bytes → List Event)) (type : Typeflag) (path : Bytes) : List Event :=
  match sub with
  | none => []
  | some f =>
    if type = .D ∨ type = .DP then
      match W.opendir path with
      | .ok names => trail_names f path names
      | .error .eacces => []
      | .error _ => [.fail]
    else []

def trail_body (W : World) (sub : Option (List History → Bytes → List Event)) (h : List History) (path : Bytes) :
    List Event :=
  match node_type W plink_flags path with
  | none => [.fail]
  | some (st, type) =>
    if h.head?.any fun p => st.dev != p.dev then []
    else
      let level := (h.head?.map fun p => p.level + 1).getD 0
      let new : History := ⟨st.dev, st.ino, level, path.length + 1⟩
      let c : Call := ⟨path, st, type, level, (h.head?.map History.base).getD (root_base path)⟩
      .call c ::
        if h.any fun p => p.dev == st.dev && p.ino == st.ino then []
        else trail_dir W (sub.map fun f => f (new :: h)) type path

/-- what the walk meets from path on, in order, as long as the callback returns 0 -/
def trail (W : World) : ℕ → List History → Bytes → List Event
  | 0 => trail_body W none
  | fd_limit + 1 => trail_body W (some (trail W fd_limit))

/-- the callback is called on what is met, up to the first call that does not return 0 -/
def play (fn : Call → Ret) : List Event → Ret × List Call
  | [] => (.ret 0, [])
  | .fail :: _ => (.ret (-1), [])
  | .call c :: es => if fn c = .ret 0 then ((play fn es).1, c :: (play fn es).2) else (fn c, [c])

theorem play_on {fn : Call → Ret} {c : Call} (hc : fn c = .ret 0) (es : List Event) :
    play fn (.call c :: es) = ((play fn es).1, c :: (play fn es).2) := by
  rw [play, if_pos hc]

theorem play_stop {fn : Call → Ret} {c : Call} (hc : fn c ≠ .ret 0) (es : List Event) :
    play fn (.call c :: es) = (fn c, [c]) := by
  rw [play, if_neg hc]

theorem play_append (fn : Call → Ret) (es fs : List Event) :
    play fn (es ++ fs) =
      if (play fn es).1 = .ret 0 then ((play fn fs).1, (play fn es).2 ++ (play fn fs).2) else play fn es := by
  induction es with
  | nil => simp [play]
  | cons e es ih =>
    cases e with
    | fail => simp [play]
    | call c =>
      by_cases hc : fn c = .ret 0
      · rw [List.cons_append, play_on hc, play_on hc, ih]
        by_cases he : (play fn es).1 = .ret 0
        · rw [if_pos he, if_pos he]
          rfl
        · rw [if_neg he, if_neg he]
      · rw [List.cons_append, play_stop hc, play_stop hc, if_neg hc]

/-- what a level does: it plays the trail, and leaves the path as it was when it returns 0 -/
structure Plays (fn : Call → Ret) (es : List Event) (path : Bytes) (w : Walk) : Prop where
  ret : w.ret = (play fn es).1
  calls : w.calls = (play fn es).2
  path : w.ret = .ret 0 → w.path = path

theorem put_name_again (path d d' : Bytes) :
    put_name (put_name path (trimmed path) d) (trimmed path) d' = put_name path (trimmed path) d' := by
  have hle : trimmed path ≤ path.length := by
    unfold trimmed
    split_ifs <;> omega
  unfold put_name
  rw [List.take_left' (by rw [List.length_take]; omega)]

theorem put_name_cut (path d : Bytes) : (put_name path (trimmed path) d).take path.length = path := by
  unfold put_name trimmed
  by_cases hlast : path.getLast? = some 47
  · rw [if_pos hlast]
    obtain ⟨ys, rfl⟩ := List.getLast?_eq_some_iff.1 hlast
    have hys : (ys ++ [47]).take ((ys ++ [47]).length - 1) ++ 47 :: d = (ys ++ [47]) ++ d := by simp
    rw [hys, List.take_left']
    rfl
  · rw [if_neg hlast, List.take_length, List.take_left']
    rfl

/-- the loop over the entries: the buffer holds the path of the directory, or the one of the entry before -/
theorem readdir_loop_plays (fn : Call → Ret) (sub : Bytes → Walk) (tr : Bytes → List Event) (path : Bytes)
    (hsub : ∀ p, Plays fn (tr p) p (sub p)) (names : List Bytes) :
    ∀ buf, (buf = path ∨ ∃ d, buf = put_name path (trimmed path) d) →
      let w := readdir_loop sub path.length (trimmed path) names buf
      Plays fn (trail_names tr path names) path { w with path := w.path.take path.length } := by
  induction names with
  | nil =>
    intro buf hbuf
    refine ⟨rfl, rfl, ?_⟩
    intro _
    rcases hbuf with rfl | ⟨d, rfl⟩
    · exact List.take_length
    · exact put_name_cut path d
  | cons d ds ih =>
    intro buf hbuf
    have hput : put_name buf (trimmed path) d = put_name path (trimmed path) d := by
      rcases hbuf with rfl | ⟨d', rfl⟩
      · rfl
      · exact put_name_again path d' d
    simp only [readdir_loop, trail_names]
    by_cases hdots : dots d = true
    · simp only [hdots, if_true]
      exact ih buf hbuf
    · simp only [hdots, Bool.false_eq_true, if_false]
      by_cases hlong : d.length ≥ PATH_MAX - path.length
      · simp only [hlong, if_true]
        exact ⟨rfl, rfl, fun h => by simp at h⟩
      · simp only [hlong, if_false, hput]
        have hw := hsub (put_name path (trimmed path) d)
        by_cases hr : (sub (put_name path (trimmed path) d)).ret = .ret 0
        · have hrest := ih (sub (put_name path (trimmed path) d)).path (Or.inr ⟨d, hw.path hr⟩)
          have hplay := play_append fn (tr (put_name path (trimmed path) d)) (trail_names tr path ds)
          rw [if_pos (hw.ret ▸ hr)] at hplay
          rw [if_pos hr]
          refine ⟨?_, ?_, hrest.path⟩
          · rw [hplay]
            exact hrest.ret
          · rw [hplay, ← hrest.calls, ← hw.calls]
        · have hplay := play_append fn (tr (put_name path (trimmed path) d)) (trail_names tr path ds)
          rw [if_neg (hw.ret ▸ hr)] at hplay
          rw [if_neg hr]
          exact ⟨by rw [hplay]; exact hw.ret, by rw [hplay]; exact hw.calls, fun h => absurd h hr⟩

theorem nftw_dir_plays (W : World) (fn : Call → Ret) (sub : Option (Bytes → Walk)) (tr : Option (Bytes → List Event))
    (hnone : sub = none ↔ tr = none) (hsub : ∀ f g, sub = some f → tr = some g → ∀ p, Plays fn (g p) p (f p))
    (type : Typeflag) (path : Bytes) :
    let w := nftw_dir W sub type path
    Plays fn (trail_dir W tr type path) path { w with path := w.path.take path.length } := by
  have hzero : Plays fn [] path ⟨.ret 0, path.take path.length, []⟩ := ⟨rfl, rfl, fun _ => List.take_length⟩
  cases sub with
  | none =>
    rw [hnone.1 rfl]
    exact hzero
  | some f =>
    cases tr with
    | none => exact absurd (hnone.2 rfl) (by simp)
    | some g =>
      simp only [nftw_dir, trail_dir]
      by_cases hty : type = .D ∨ type = .DP
      · rw [if_pos hty, if_pos hty]
        cases W.opendir path with
        | ok names => exact readdir_loop_plays fn f g path (hsub f g rfl rfl) names path (Or.inl rfl)
        | error e =>
          cases e with
          | eacces => exact hzero
          | enoent => exact ⟨rfl, rfl, fun h => by simp at h⟩
          | other => exact ⟨rfl, rfl, fun h => by simp at h⟩
      · rw [if_neg hty, if_neg hty]
        exact hzero

theorem mapped_plays {fn : Call → Ret} {sub : Option (List History → Bytes → Walk)}
    {tr : Option (List History → Bytes → List Event)}
    (hsub : ∀ f g, sub = some f → tr = some g → ∀ h p, Plays fn (g h p) p (f h p)) (h : List History)
    (f : Bytes → Walk) (g : Bytes → List Event) (hf : (sub.map fun f => f h) = some f)
    (hg : (tr.map fun f => f h) = some g) : ∀ p, Plays fn (g p) p (f p) := by
  obtain ⟨f', hf', rfl⟩ := Option.map_eq_some_iff.1 hf
  obtain ⟨g', hg', rfl⟩ := Option.map_eq_some_iff.1 hg
  exact hsub f' g' hf' hg' h

/-- one level -/
theorem nftw_body_plays (W : World) (fn : Call → Ret) (sub : Option (List History → Bytes → Walk))
    (tr : Option (List History → Bytes → List Event)) (hnone : sub = none ↔ tr = none)
    (hsub : ∀ f g, sub = some f → tr = some g → ∀ h p, Plays fn (g h p) p (f h p)) (h : List History) (path : Bytes) :
    Plays fn (trail_body W tr h path) path (nftw_body W fn plink_flags sub h path) := by
  obtain ⟨-, hmount, hdepth, haction⟩ := plink_flags_bits
  simp only [nftw_body, trail_body, hmount, hdepth, haction, Bool.true_and, Bool.false_and, Bool.false_eq_true, if_false]
  cases node_type W plink_flags path with
  | none => exact ⟨rfl, rfl, fun _ => rfl⟩
  | some r =>
    obtain ⟨st, type⟩ := r
    simp only
    by_cases hdev : (h.head?.any fun p => st.dev != p.dev) = true
    · rw [if_pos hdev, if_pos hdev]
      exact ⟨rfl, rfl, fun _ => rfl⟩
    · rw [if_neg hdev, if_neg hdev]
      generalize (⟨path, st, type, (h.head?.map fun p => p.level + 1).getD 0,
        (h.head?.map History.base).getD (root_base path)⟩ : Call) = c
      generalize (⟨st.dev, st.ino, (h.head?.map fun p => p.level + 1).getD 0, path.length + 1⟩ : History) = new
      have hdir := nftw_dir_plays W fn (sub.map fun f => f (new :: h)) (tr.map fun f => f (new :: h))
        (by simpa using hnone) (mapped_plays hsub (new :: h)) type path
      by_cases hc : fn c = .ret 0
      · rw [if_neg (not_not.2 hc)]
        by_cases hsame : (h.any fun p => p.dev == st.dev && p.ino == st.ino) = true
        · rw [if_pos hsame, if_pos hsame]
          exact ⟨by rw [play_on hc]; rfl, by rw [play_on hc]; rfl, fun _ => rfl⟩
        · rw [if_neg hsame, if_neg hsame]
          by_cases hr : (nftw_dir W (sub.map fun f => f (new :: h)) type path).ret = .ret 0
          · rw [if_neg (not_not.2 hr)]
            refine ⟨?_, ?_, fun _ => hdir.path hr⟩
            · rw [play_on hc, ← hdir.ret]
              exact hr.symm
            · rw [play_on hc, ← hdir.calls]
              rfl
          · rw [if_pos hr]
            refine ⟨?_, ?_, fun h0 => absurd h0 hr⟩
            · rw [play_on hc, ← hdir.ret]
            · rw [play_on hc, ← hdir.calls]
              rfl
      · rw [if_pos hc]
        exact ⟨by rw [play_stop hc], by rw [play_stop hc], fun _ => rfl⟩

/-- **The walk plays its trail.** -/
theorem do_nftw_play (W : World) (fn : Call → Ret) (fd_limit : ℕ) :
    ∀ h path, Plays fn (trail W fd_limit h path) path (do_nftw W fn plink_flags fd_limit h path) := by
  induction fd_limit with
  | zero => exact nftw_body_plays W fn none none (by simp) (fun _ _ hf => by simp at hf)
  | succ n ih =>
    refine nftw_body_plays W fn (some _) (some _) (by simp) ?_
    intro f g hf hg
    rw [← Option.some.inj hf, ← Option.some.inj hg]
    exact ih

end AufsUtil.Plink
