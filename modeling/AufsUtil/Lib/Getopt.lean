/-
getopt_long(3) as glibc has it, over an argument vector that it permutes while it scans.

A vector (without argv[0]) is split in four: the elements taken as options or as their arguments, the operands that were
passed over, the elements ahead, and the rest of the element whose letters are being read (`Scan`). One call returns one
option, an error, or -1, and goes on from where the last call stopped; a call that returns -1 leaves the options in
front of the operands, with optind at the first operand.

`Parses` is the grammar of vectors whose options are all known: letters alone or in clusters, long options, arguments
attached or in the next element, operands anywhere, and "--". `Calls` is the run of the calls.

- `calls_cluster`: the letters of a cluster are returned one by one.
- `parses_calls`: the calls on a vector of the grammar return its options in their order, then -1, and the operands are
  behind optind.
-/
import Mathlib.Tactic
import AufsUtil.Lib.CStr

namespace AufsUtil.Getopt

open AufsUtil.CStr

/-- the letter that stands for an option, and its argument -/
abbrev Opt := UInt8 × Option Bytes

/-- the option string, and the table of long options: name, does it take an argument, letter -/
structure Spec where
  optstring : Bytes
  longopts : List (Bytes × Bool × UInt8)

/-- does the letter take an argument; `none` for a letter that the option string does not have -/
def Spec.short (sp : Spec) (c : UInt8) : Option Bool :=
  if c = 58 ∨ c = 59 then none
  else
    match sp.optstring.dropWhile (· ≠ c) with
    | [] => none
    | _ :: t => some (t.head? == some 58)

/-- the option with this name, or the options that begin with it if they mean the same -/
def Spec.long (sp : Spec) (name : Bytes) : Option (Bool × UInt8) :=
  match sp.longopts.find? fun o => o.1 == name with
  | some o => some o.2
  | none =>
    match sp.longopts.filter fun o => name.isPrefixOf o.1 with
    | [] => none
    | o :: os => if os.all fun p => p.2 == o.2 then some o.2 else none

structure Scan where
  nextchar : Bytes
  used : List Bytes
  skipped : List Bytes
  rest : List Bytes
deriving DecidableEq, Repr

/-- before the first call -/
def Scan.start (args : List Bytes) : Scan := ⟨[], [], [], args⟩

/-- the vector as it is permuted, behind argv[0] -/
def Scan.argv (s : Scan) : List Bytes := s.used ++ s.skipped ++ s.rest

/-- optind when -1 has been returned -/
def Scan.optind (s : Scan) : ℕ := 1 + s.used.length

/-- what a call returns: an option, '?', or -1 -/
inductive Ret where
  | opt (o : Opt)
  | err
  | stop
deriving DecidableEq, Repr

/-- an element that is no option: it does not begin with '-', or is "-" -/
def operand : Bytes → Bool
  | 45 :: _ :: _ => false
  | _ => true

/-- the option letter c, with cs behind it in its element -/
def short_option (sp : Spec) (c : UInt8) (cs : Bytes) (s : Scan) : Ret × Scan :=
  match sp.short c with
  | none => (.err, { s with nextchar := cs })
  | some false => (.opt (c, none), { s with nextchar := cs })
  | some true =>
    if cs ≠ [] then (.opt (c, some cs), { s with nextchar := [] })
    else
      match s.rest with
      | [] => (.err, { s with nextchar := [] })
      | x :: xs => (.opt (c, some x), { s with nextchar := [], used := s.used ++ [x], rest := xs })

/-- the long option in an element, behind its "--" -/
def long_option (sp : Spec) (t : Bytes) (s : Scan) : Ret × Scan :=
  match sp.long (t.takeWhile (· ≠ 61)), t.dropWhile (· ≠ 61), s.rest with
  | some (false, v), [], _ => (.opt (v, none), s)
  | some (true, v), _ :: arg, _ => (.opt (v, some arg), s)
  | some (true, v), [], x :: xs => (.opt (v, some x), { s with used := s.used ++ [x], rest := xs })
  | _, _, _ => (.err, s)

/-- a call that starts with a new element, when the operands have been passed over -/
def next_element (sp : Spec) (s : Scan) : Ret × Scan :=
  match s.rest with
  | [] => (.stop, s)
  | x :: xs =>
    let s := { s with used := s.used ++ [x], rest := xs }
    if x = [45, 45] then (.stop, { s with skipped := s.skipped ++ xs, rest := [] })
    else if x.take 2 = [45, 45] then long_option sp (x.drop 2) s
    else
      match x.drop 1 with
      | [] => (.err, s)
      | c :: cs => short_option sp c cs s

def pass_operands (s : Scan) : Scan :=
  { s with skipped := s.skipped ++ s.rest.takeWhile operand, rest := s.rest.dropWhile operand }

def getopt_long (sp : Spec) (s : Scan) : Ret × Scan :=
  match s.nextchar with
  | c :: cs => short_option sp c cs s
  | [] => next_element sp (pass_operands s)

/-! ## Vectors whose options are known -/

/-- letters without arguments -/
def Flags (sp : Spec) (cs : Bytes) : Prop := ∀ c ∈ cs, sp.short c = some false

/-- the options that such letters are -/
def flagOpts (cs : Bytes) : List Opt := cs.map fun c => (c, none)

/-- the elements, the options given in them, and the operands -/
inductive Parses (sp : Spec) : List Bytes → List Opt → List Bytes → Prop where
  | nil : Parses sp [] [] []
  | dashes (xs : List Bytes) : Parses sp ([45, 45] :: xs) [] xs
  | operand {x : Bytes} {xs : List Bytes} {os : List Opt} {ps : List Bytes} (hx : operand x = true)
      (h : Parses sp xs os ps) : Parses sp (x :: xs) os (x :: ps)
  | cluster {c : UInt8} {cs : Bytes} {xs : List Bytes} {os : List Opt} {ps : List Bytes} (hc : c ≠ 45)
      (hf : Flags sp (c :: cs)) (h : Parses sp xs os ps) :
      Parses sp ((45 :: c :: cs) :: xs) (flagOpts (c :: cs) ++ os) ps
  | attached {cs : Bytes} {d : UInt8} {arg : Bytes} {xs : List Bytes} {os : List Opt} {ps : List Bytes}
      (hc : (cs ++ [d]).head? ≠ some 45) (hf : Flags sp cs) (hd : sp.short d = some true) (ha : arg ≠ [])
      (h : Parses sp xs os ps) : Parses sp ((45 :: (cs ++ d :: arg)) :: xs) (flagOpts cs ++ (d, some arg) :: os) ps
  | separate {cs : Bytes} {d : UInt8} {arg : Bytes} {xs : List Bytes} {os : List Opt} {ps : List Bytes}
      (hc : (cs ++ [d]).head? ≠ some 45) (hf : Flags sp cs) (hd : sp.short d = some true) (h : Parses sp xs os ps) :
      Parses sp ((45 :: (cs ++ [d])) :: arg :: xs) (flagOpts cs ++ (d, some arg) :: os) ps
  | long {name : Bytes} {v : UInt8} {xs : List Bytes} {os : List Opt} {ps : List Bytes} (hn : name ≠ [])
      (he : (61 : UInt8) ∉ name) (hl : sp.long name = some (false, v)) (h : Parses sp xs os ps) :
      Parses sp ((45 :: 45 :: name) :: xs) ((v, none) :: os) ps
  | longAttached {name arg : Bytes} {v : UInt8} {xs : List Bytes} {os : List Opt} {ps : List Bytes}
      (he : (61 : UInt8) ∉ name) (hl : sp.long name = some (true, v)) (h : Parses sp xs os ps) :
      Parses sp ((45 :: 45 :: (name ++ 61 :: arg)) :: xs) ((v, some arg) :: os) ps
  | longSeparate {name arg : Bytes} {v : UInt8} {xs : List Bytes} {os : List Opt} {ps : List Bytes} (hn : name ≠ [])
      (he : (61 : UInt8) ∉ name) (hl : sp.long name = some (true, v)) (h : Parses sp xs os ps) :
      Parses sp ((45 :: 45 :: name) :: arg :: xs) ((v, some arg) :: os) ps

/-- calls one after the other return the options, and the next one -1, with the scan as it leaves it -/
inductive Calls (sp : Spec) : Scan → List Opt → Scan → Prop where
  | stop {s t : Scan} (h : getopt_long sp s = (.stop, t)) : Calls sp s [] t
  | opt {s t u : Scan} {o : Opt} {os : List Opt} (h : getopt_long sp s = (.opt o, t)) (hc : Calls sp t os u) :
      Calls sp s (o :: os) u

/-! ## One element -/

/-- the letters of a cluster are returned one by one -/
theorem calls_cluster {sp : Spec} {cs : Bytes} (hf : Flags sp cs) {s u : Scan} {t : Bytes} {os : List Opt}
    (h : Calls sp { s with nextchar := t } os u) :
    Calls sp { s with nextchar := cs ++ t } (flagOpts cs ++ os) u := by
  induction cs with
  | nil => exact h
  | cons c cs ih =>
    have hc : sp.short c = some false := hf c List.mem_cons_self
    have hrest := ih fun d hd => hf d (List.mem_cons_of_mem c hd)
    refine Calls.opt (t := { s with nextchar := cs ++ t }) ?_ hrest
    simp only [getopt_long, List.cons_append, short_option, hc]

/-- the state in which the letters of an element are read from its first one on -/
def Scan.inside (s : Scan) (x cs : Bytes) (xs : List Bytes) : Scan :=
  { s with nextchar := cs, used := s.used ++ [x], rest := xs }

/-- a call that comes to an element beginning with '-' -/
theorem getopt_element {sp : Spec} {s : Scan} {x : Bytes} {xs : List Bytes} (hn : s.nextchar = [])
    (hr : s.rest = x :: xs) (hx : operand x = false) :
    getopt_long sp s = next_element sp { s with rest := x :: xs } := by
  have hpass : pass_operands s = { s with rest := x :: xs } := by simp [pass_operands, hr, hx]
  rw [getopt_long, hn]
  simp only
  rw [hpass, hn]

/-- a call on an element of letters does what it does inside of it -/
theorem getopt_letters {sp : Spec} {s : Scan} {c : UInt8} {cs : Bytes} {xs : List Bytes} (hn : s.nextchar = [])
    (hr : s.rest = (45 :: c :: cs) :: xs) (hc : c ≠ 45) :
    getopt_long sp s = getopt_long sp (s.inside (45 :: c :: cs) (c :: cs) xs) := by
  rw [getopt_element hn hr rfl]
  simp only [next_element, getopt_long, Scan.inside, List.cons.injEq, hc, List.take_succ_cons, false_and, and_false,
    if_false, List.drop_succ_cons, List.drop_zero]
  -- nextchar is overwritten
  unfold short_option
  cases sp.short c with
  | none => rfl
  | some b =>
    cases b with
    | false => rfl
    | true => rfl

theorem calls_letters {sp : Spec} {s u : Scan} {c : UInt8} {cs : Bytes} {xs : List Bytes} {os : List Opt}
    (hn : s.nextchar = []) (hr : s.rest = (45 :: c :: cs) :: xs) (hc : c ≠ 45)
    (h : Calls sp (s.inside (45 :: c :: cs) (c :: cs) xs) os u) : Calls sp s os u := by
  cases h with
  | stop h => exact .stop ((getopt_letters hn hr hc).trans h)
  | opt h hrest => exact .opt ((getopt_letters hn hr hc).trans h) hrest

/-- an element that begins with flags -/
theorem calls_element {sp : Spec} {s u : Scan} {cs t : Bytes} {xs : List Bytes} {os : List Opt} (hn : s.nextchar = [])
    (hr : s.rest = (45 :: (cs ++ t)) :: xs) (hne : cs ++ t ≠ []) (hc : (cs ++ t).head? ≠ some 45) (hf : Flags sp cs)
    (h : Calls sp (s.inside (45 :: (cs ++ t)) t xs) os u) : Calls sp s (flagOpts cs ++ os) u := by
  have hcalls : Calls sp (s.inside (45 :: (cs ++ t)) (cs ++ t) xs) (flagOpts cs ++ os) u :=
    calls_cluster (s := s.inside (45 :: (cs ++ t)) t xs) hf h
  cases helem : cs ++ t with
  | nil => exact absurd helem hne
  | cons c rest =>
    rw [helem] at hr hc hcalls
    exact calls_letters hn hr (fun h45 => hc (congrArg some h45)) hcalls

/-- an operand is passed over by the call that comes to it -/
theorem getopt_operand {sp : Spec} {s : Scan} {x : Bytes} {xs : List Bytes} (hn : s.nextchar = [])
    (hr : s.rest = x :: xs) (hx : operand x = true) :
    getopt_long sp s = getopt_long sp { s with skipped := s.skipped ++ [x], rest := xs } := by
  have hpass : pass_operands s = pass_operands { s with skipped := s.skipped ++ [x], rest := xs } := by
    simp [pass_operands, hr, hx]
  simp only [getopt_long, hn, hpass]

theorem calls_operand {sp : Spec} {s u : Scan} {x : Bytes} {xs : List Bytes} {os : List Opt} (hn : s.nextchar = [])
    (hr : s.rest = x :: xs) (hx : operand x = true)
    (h : Calls sp { s with skipped := s.skipped ++ [x], rest := xs } os u) : Calls sp s os u := by
  cases h with
  | stop h => exact .stop ((getopt_operand hn hr hx).trans h)
  | opt h hrest => exact .opt ((getopt_operand hn hr hx).trans h) hrest

/-- a call on a long option -/
theorem getopt_long_element {sp : Spec} {s : Scan} {t : Bytes} {xs : List Bytes} (hn : s.nextchar = [])
    (hr : s.rest = (45 :: 45 :: t) :: xs) (ht : t ≠ []) :
    getopt_long sp s = long_option sp t { s with used := s.used ++ [45 :: 45 :: t], rest := xs } := by
  rw [getopt_element hn hr rfl]
  simp [next_element, ht]

/-- the name of a long option, and what follows it -/
theorem long_name {name t : Bytes} (he : (61 : UInt8) ∉ name) (htl : t = [] ∨ t.head? = some 61) :
    (name ++ t).takeWhile (· ≠ 61) = name ∧ (name ++ t).dropWhile (· ≠ 61) = t := by
  have hname : ∀ c ∈ name, decide (c ≠ 61) = true := fun c hc => decide_eq_true fun h => he (h ▸ hc)
  rw [List.takeWhile_append_of_pos hname, List.dropWhile_append_of_pos hname]
  rcases htl with rfl | htl
  · simp
  · cases t with
    | nil => cases htl
    | cons c t =>
      rw [List.head?_cons, Option.some.injEq] at htl
      simp [htl]

/-! ## The whole vector -/

/-- **The calls on a vector of the grammar** return its options in their order, then -1; the operands that were passed
over and those ahead are then behind the options. -/
theorem parses_calls {sp : Spec} {args : List Bytes} {os : List Opt} {ps : List Bytes} (h : Parses sp args os ps)
    (s : Scan) (hn : s.nextchar = []) (hr : s.rest = args) :
    ∃ u, Calls sp s os u ∧ u.skipped = s.skipped ++ ps ∧ u.rest = [] := by
  induction h generalizing s with
  | nil =>
    refine ⟨pass_operands s, .stop ?_, by simp [pass_operands, hr], by simp [pass_operands, hr]⟩
    simp [getopt_long, hn, next_element, pass_operands, hr]
  | dashes xs =>
    refine ⟨{ s with used := s.used ++ [[45, 45]], skipped := s.skipped ++ xs, rest := [] }, .stop ?_, rfl, rfl⟩
    rw [getopt_element hn hr rfl, next_element]
    rfl
  | @operand x xs os ps hx _ ih =>
    obtain ⟨u, hc, hsk, hrest⟩ := ih { s with skipped := s.skipped ++ [x], rest := xs } hn rfl
    exact ⟨u, calls_operand hn hr hx hc, by simp [hsk], hrest⟩
  | @cluster c cs xs os ps hc hf _ ih =>
    obtain ⟨u, hcalls, hsk, hrest⟩ := ih (s.inside (45 :: c :: cs) [] xs) rfl rfl
    have helem : c :: cs ++ [] = c :: cs := List.append_nil _
    refine ⟨u, calls_element hn (by rw [hr, helem]) (by simp) (by simpa using hc) hf ?_, hsk, hrest⟩
    rwa [helem]
  | @attached cs d arg xs os ps hc hf hd ha _ ih =>
    obtain ⟨u, hcalls, hsk, hrest⟩ := ih (s.inside (45 :: (cs ++ d :: arg)) [] xs) rfl rfl
    have hlast : Calls sp (s.inside (45 :: (cs ++ d :: arg)) (d :: arg) xs) ((d, some arg) :: os) u := by
      refine Calls.opt ?_ hcalls
      simp [getopt_long, Scan.inside, short_option, hd, ha]
    exact ⟨u, calls_element hn hr (by simp) (by simpa [List.head?_append] using hc) hf hlast, hsk, hrest⟩
  | @separate cs d arg xs os ps hc hf hd _ ih =>
    obtain ⟨u, hcalls, hsk, hrest⟩ :=
      ih { s with nextchar := [], used := s.used ++ [45 :: (cs ++ [d])] ++ [arg], rest := xs } rfl rfl
    have hlast : Calls sp (s.inside (45 :: (cs ++ [d])) [d] (arg :: xs)) ((d, some arg) :: os) u := by
      refine Calls.opt ?_ hcalls
      simp [getopt_long, Scan.inside, short_option, hd]
    exact ⟨u, calls_element hn hr (by simp) hc hf hlast, hsk, hrest⟩
  | @long name v xs os ps hname he hl _ ih =>
    obtain ⟨u, hcalls, hsk, hrest⟩ := ih { s with used := s.used ++ [45 :: 45 :: name], rest := xs } hn rfl
    refine ⟨u, Calls.opt ?_ hcalls, hsk, hrest⟩
    obtain ⟨htake, hdrop⟩ := long_name (t := []) he (Or.inl rfl)
    rw [List.append_nil] at htake hdrop
    rw [getopt_long_element hn hr hname, long_option, htake, hdrop, hl]
  | @longAttached name arg v xs os ps he hl _ ih =>
    obtain ⟨u, hcalls, hsk, hrest⟩ :=
      ih { s with used := s.used ++ [45 :: 45 :: (name ++ 61 :: arg)], rest := xs } hn rfl
    refine ⟨u, Calls.opt ?_ hcalls, hsk, hrest⟩
    obtain ⟨htake, hdrop⟩ := long_name (t := 61 :: arg) he (Or.inr rfl)
    rw [getopt_long_element hn hr (by simp), long_option, htake, hdrop, hl]
  | @longSeparate name arg v xs os ps hname he hl _ ih =>
    obtain ⟨u, hcalls, hsk, hrest⟩ :=
      ih { s with used := s.used ++ [45 :: 45 :: name] ++ [arg], rest := xs } hn rfl
    refine ⟨u, Calls.opt ?_ hcalls, hsk, hrest⟩
    obtain ⟨htake, hdrop⟩ := long_name (t := []) he (Or.inl rfl)
    rw [List.append_nil] at htake hdrop
    rw [getopt_long_element hn hr hname, long_option, htake, hdrop, hl]

/-- the letters of all options -/
def Spec.letters (sp : Spec) : List UInt8 := sp.optstring.filter (· ≠ 58) ++ sp.longopts.map fun o => o.2.2

theorem short_letters {sp : Spec} {c : UInt8} {b : Bool} (h : sp.short c = some b) : c ∈ sp.letters := by
  unfold Spec.short at h
  split_ifs at h with hc
  rw [not_or] at hc
  cases hd : sp.optstring.dropWhile (· ≠ c) with
  | nil =>
    rw [hd] at h
    cases h
  | cons x t =>
    have hx : x = c := by
      have hne : sp.optstring.dropWhile (fun x => decide (x ≠ c)) ≠ [] := by
        rw [hd]
        exact List.cons_ne_nil x t
      have hhead := List.head_dropWhile_not (fun x => decide (x ≠ c)) hne
      simp only [hd, List.head_cons] at hhead
      simpa using hhead
    have hmem : x ∈ sp.optstring := by
      refine (List.dropWhile_suffix (· ≠ c)).subset ?_
      rw [hd]
      exact List.mem_cons_self
    exact List.mem_append_left _ (List.mem_filter.2 ⟨hx ▸ hmem, by simpa using hc.1⟩)

theorem long_letters {sp : Spec} {name : Bytes} {b : Bool} {v : UInt8} (h : sp.long name = some (b, v)) :
    v ∈ sp.letters := by
  have hof : ∀ o ∈ sp.longopts, o.2 = (b, v) → v ∈ sp.letters := by
    intro o ho hv
    exact List.mem_append_right _ (List.mem_map.2 ⟨o, ho, by rw [hv]⟩)
  unfold Spec.long at h
  split at h
  · rename_i o hf
    exact hof o (List.mem_of_find?_eq_some hf) (Option.some.inj h)
  · split at h
    · cases h
    · rename_i o os hf
      split_ifs at h
      have ho : o ∈ sp.longopts := List.mem_of_mem_filter (hf ▸ List.mem_cons_self)
      exact hof o ho (Option.some.inj h)

/-- the options of a vector of the grammar have letters of the tables -/
theorem parses_letters {sp : Spec} {args : List Bytes} {os : List Opt} {ps : List Bytes} (h : Parses sp args os ps) :
    ∀ o ∈ os, o.1 ∈ sp.letters := by
  have hflags : ∀ cs, Flags sp cs → ∀ o ∈ flagOpts cs, o.1 ∈ sp.letters := by
    intro cs hf o ho
    obtain ⟨c, hc, rfl⟩ := List.mem_map.1 ho
    exact short_letters (hf c hc)
  induction h with
  | nil => exact fun o ho => absurd ho List.not_mem_nil
  | dashes xs => exact fun o ho => absurd ho List.not_mem_nil
  | operand hx _ ih => exact ih
  | cluster hc hf _ ih => exact List.forall_mem_append.2 ⟨hflags _ hf, ih⟩
  | attached hc hf hd ha _ ih =>
    exact List.forall_mem_append.2 ⟨hflags _ hf, List.forall_mem_cons.2 ⟨short_letters hd, ih⟩⟩
  | separate hc hf hd _ ih =>
    exact List.forall_mem_append.2 ⟨hflags _ hf, List.forall_mem_cons.2 ⟨short_letters hd, ih⟩⟩
  | long hname he hl _ ih => exact List.forall_mem_cons.2 ⟨long_letters hl, ih⟩
  | longAttached he hl _ ih => exact List.forall_mem_cons.2 ⟨long_letters hl, ih⟩
  | longSeparate hname he hl _ ih => exact List.forall_mem_cons.2 ⟨long_letters hl, ih⟩

/-- argv[optind] is the first operand -/
theorem argv_optind (s : Scan) (argv0 : Bytes) (hr : s.rest = []) :
    (argv0 :: s.argv)[s.optind]? = s.skipped.head? := by
  rw [Scan.optind, Nat.add_comm, List.getElem?_cons_succ, Scan.argv, hr, List.append_nil,
    List.getElem?_append_right le_rfl, Nat.sub_self, List.head?_eq_getElem?]

end AufsUtil.Getopt
