/-
The bytes of the entry buffer, and moving the recorded entries together (`libau/rdu_lib.c`, the end of rdu_merge).

The kernel writes the entries one after the other, each padded to a multiple of 8 bytes (`Layout`). After the loop over
them pos[] points to the recorded ones; the others are holes. Two loops then close the holes: the first passes over the
entries that stand where they should, the second moves every other one down with memmove(3), over the holes and over
entries that were moved before it.

- `slide_layout`: entries in ascending order, none above the place it goes to, end up back to back.
- `unmoved_kept`: after any number of moves, the entries that were not moved yet are intact.
- `compaction_keeps_listing`: when rdu_merge succeeds, pos[] is the recorded entries in order, back to back from the
  start of the buffer, with the bytes they had before.

What the model keeps of C: the flag `wh` is written into the buffer; the lengths are read from it, before a move and
again after it. The trees of the merge hold the entries themselves (`AufsUtil.Rdu.Merge`): between the writes of the
flag the buffer does not change. The second realloc(3) of pos[] may fail, which changes nothing.
-/
import Mathlib.Tactic
import AufsUtil.Lib.Memory
import AufsUtil.Rdu.Merge
import AufsUtil.Rdu.UnionView

namespace AufsUtil.Rdu

open AufsUtil.CStr AufsUtil.Memory

/-! ## Entries in memory -/

/-- the bytes of struct au_rdu_ent: ino, bindex, type, nlen, wh, and the name with its NUL -/
def RduEnt.image (e : RduEnt) : Bytes :=
  le 8 e.ino ++ le 2 e.bindex ++ [UInt8.ofNat e.type, UInt8.ofNat e.nlen, if e.wh then 1 else 0] ++ e.name ++ [0]

/-- `nlen` of the entry at a -/
def nlen_at (m : Mem) (a : ℕ) : ℕ := (m (a + 11)).toNat

/-- entries back to back from u on -/
def Layout (m : Mem) : ℕ → List RduEnt → Prop
  | _, [] => True
  | u, e :: es => At m u e.image ∧ Layout m (u + au_rdu_len e.nlen) es

instance (m : Mem) : ∀ (u : ℕ) (es : List RduEnt), Decidable (Layout m u es)
  | _, [] => isTrue trivial
  | u, e :: es =>
    have := instDecidableLayout m (u + au_rdu_len e.nlen) es
    inferInstanceAs (Decidable (At m u e.image ∧ Layout m (u + au_rdu_len e.nlen) es))

/-- where they start -/
def starts : ℕ → List RduEnt → List ℕ
  | _, [] => []
  | u, e :: es => u :: starts (u + au_rdu_len e.nlen) es

theorem length_image (e : RduEnt) : e.image.length = e.nlen + 14 := by
  simp [RduEnt.image, RduEnt.nlen]
  omega

theorem image_le (e : RduEnt) : e.image.length ≤ au_rdu_len e.nlen := by
  rw [length_image, au_rdu_len]
  omega

theorem nlen_of_at {m : Mem} {a : ℕ} {e : RduEnt} (h : At m a e.image) : nlen_at m a = e.nlen := by
  have hbyte := h 11 (by rw [length_image]; omega)
  have himage : e.image[11]? = some (UInt8.ofNat e.nlen) := by
    simp [RduEnt.image, List.getElem?_append]
  have hle : e.nlen ≤ 255 := e.name_le
  rw [himage, Option.some.injEq] at hbyte
  rw [nlen_at, ← hbyte, UInt8.toNat_ofNat']
  omega

/-! ## The merge over the buffer -/

/-- `u.e->wh = 0`, and `ent->wh = 1` for a whiteout -/
def write_wh (m : Mem) (u : ℕ) (e : RduEnt) : Mem :=
  let m := write m (u + 12) [0]
  if plain e then m else write m (u + 12) [1]

/-- the loop of rdu_merge with the buffer -/
def merge_loop_mem (E : MergeEnv) : ℕ → ℕ → List RduEnt → Merge → Mem → ℤ × Merge × Mem
  | _, _, [], p, m => (0, p, m)
  | ul, u, e :: es, p, m =>
    let r := merge_one E ul u e p
    let m := write_wh m u e
    if r.1 = 0 then merge_loop_mem E (ul + 1) (u + au_rdu_len e.nlen) es r.2 m else (r.1, r.2, m)

/-- the first loop: the pointers that are passed over, those that are left, and u then -/
def pass (m : Mem) : List ℕ → ℕ → List ℕ × List ℕ × ℕ
  | [], u => ([], [], u)
  | a :: as, u =>
    if a ≠ u then ([], a :: as, u)
    else
      let r := pass m as (u + au_rdu_len (nlen_at m u))
      (a :: r.1, r.2)

/-- the second loop: the buffer after it, and the pointers it writes to pos[] -/
def slide : Mem → List ℕ → ℕ → Mem × List ℕ
  | m, [], _ => (m, [])
  | m, a :: as, u =>
    let m := memmove m u a (au_rdu_len (nlen_at m a))
    let r := slide m as (u + au_rdu_len (nlen_at m u))
    (r.1, u :: r.2)

/-- what rdu_merge leaves: npos is the length of `pos` -/
structure Compacted where
  err : ℤ
  mem : Mem
  pos : List ℕ

/-- rdu_merge on the buffer at `ent`, which holds the entries ents -/
def rdu_merge_mem (E : MergeEnv) (shwh : Bool) (ent : ℕ) (ents : List RduEnt) (m : Mem) : Compacted :=
  if E.pos_oom then ⟨-1, m, []⟩
  else
    let r := merge_loop_mem E 0 ent ents ⟨shwh, [], .leaf, .leaf, true⟩ m
    if r.1 ≠ 0 then ⟨r.1, r.2.2, []⟩
    else
      let pos := r.2.1.pos.map Cell.addr
      if pos.length = ents.length then ⟨0, r.2.2, pos⟩
      else
        let s := pass r.2.2 pos ent
        let t := slide r.2.2 s.2.1 s.2.2
        ⟨0, t.1, s.1 ++ t.2⟩

/-! ## The flags -/

/-- the bytes of an entry before `wh` -/
def RduEnt.head (e : RduEnt) : Bytes := le 8 e.ino ++ le 2 e.bindex ++ [UInt8.ofNat e.type, UInt8.ofNat e.nlen]

theorem length_head (e : RduEnt) : e.head.length = 12 := by simp [RduEnt.head]

theorem image_eq (e : RduEnt) : e.image = e.head ++ ([if e.wh then 1 else 0] ++ (e.name ++ [0])) := by
  simp [RduEnt.image, RduEnt.head]

theorem image_mark (e : RduEnt) : e.mark.image = e.head ++ ([if plain e then 0 else 1] ++ (e.name ++ [0])) := by
  have hhead : e.mark.head = e.head := rfl
  have hname : e.mark.name = e.name := rfl
  rw [image_eq, hhead, hname]
  cases hpl : plain e <;> simp [RduEnt.mark, hpl]

theorem write_wh_eq (m : Mem) (u : ℕ) (e : RduEnt) : write_wh m u e = write m (u + 12) [if plain e then 0 else 1] := by
  unfold write_wh
  by_cases hpl : plain e = true
  · simp [hpl]
  · simp only [hpl, Bool.false_eq_true, if_false]
    funext x
    by_cases hx : x < u + 12 ∨ u + 12 + 1 ≤ x
    · rw [write_outside _ _ _ hx, write_outside _ _ _ hx, write_outside _ _ _ hx]
    · obtain rfl : x = u + 12 := by omega
      simp [write]

/-- the flag is the only byte of the entry that changes -/
theorem at_write_wh {m : Mem} {u : ℕ} {e : RduEnt} (h : At m u e.image) : At (write_wh m u e) u e.mark.image := by
  rw [image_eq, at_append, at_append, length_head] at h
  obtain ⟨hhead, -, hname⟩ := h
  rw [image_mark, at_append, at_append, length_head, write_wh_eq]
  refine ⟨hhead.write ?_, at_write m (u + 12) _, hname.write ?_⟩
  · rw [length_head]
    omega
  · simp

theorem write_wh_frame {m : Mem} {x u : ℕ} {c : Bytes} (h : At m x c) (e : RduEnt) (hd : x + c.length ≤ u ∨ u + 13 ≤ x) :
    At (write_wh m u e) x c := by
  rw [write_wh_eq]
  apply h.write
  simp only [List.length_singleton]
  omega

/-- the buffer after the flags of all entries were written -/
def flagged (m : Mem) : ℕ → List RduEnt → Mem
  | _, [] => m
  | u, e :: es => flagged (write_wh m u e) (u + au_rdu_len e.nlen) es

theorem merge_loop_mem_eq (E : MergeEnv) (es : List RduEnt) :
    ∀ (ul u : ℕ) (p : Merge) (m : Mem), (merge_loop_mem E ul u es p m).1 = (merge_loop E ul u es p).1 ∧
      (merge_loop_mem E ul u es p m).2.1 = (merge_loop E ul u es p).2 ∧
      ((merge_loop E ul u es p).1 = 0 → (merge_loop_mem E ul u es p m).2.2 = flagged m u es) := by
  induction es with
  | nil => exact fun ul u p m => ⟨rfl, rfl, fun _ => rfl⟩
  | cons e es ih =>
    intro ul u p m
    simp only [merge_loop_mem, merge_loop, flagged]
    by_cases h0 : (merge_one E ul u e p).1 = 0
    · rw [if_pos h0, if_pos h0]
      exact ih _ _ _ _
    · rw [if_neg h0, if_neg h0]
      exact ⟨rfl, rfl, fun h => absurd h h0⟩

theorem flagged_frame {c : Bytes} {x : ℕ} (es : List RduEnt) :
    ∀ (m : Mem) (u : ℕ), At m x c → x + c.length ≤ u → At (flagged m u es) x c := by
  induction es with
  | nil => exact fun m u h _ => h
  | cons e es ih =>
    intro m u h hle
    exact ih _ _ (write_wh_frame h e (Or.inl hle)) (by omega)

theorem Layout.write_wh {m : Mem} {u : ℕ} (e : RduEnt) (es : List RduEnt) :
    ∀ v, u + 13 ≤ v → Layout m v es → Layout (write_wh m u e) v es := by
  induction es with
  | nil => exact fun v _ _ => trivial
  | cons f fs ih =>
    intro v hv hlay
    exact ⟨write_wh_frame hlay.1 e (Or.inr hv), ih _ (by omega) hlay.2⟩

theorem au_rdu_len_ge (nlen : ℕ) : nlen + 17 ≤ au_rdu_len nlen := by
  unfold au_rdu_len
  omega

theorem flagged_layout (es : List RduEnt) :
    ∀ (m : Mem) (u : ℕ), Layout m u es → Layout (flagged m u es) u (es.map RduEnt.mark) := by
  induction es with
  | nil => exact fun m u _ => trivial
  | cons e es ih =>
    intro m u hlay
    have hlen := au_rdu_len_ge e.nlen
    refine ⟨?_, ?_⟩
    · exact flagged_frame es _ _ (at_write_wh hlay.1) (Nat.add_le_add_left (image_le e.mark) u)
    · exact ih _ _ (Layout.write_wh e es _ (by omega) hlay.2)

/-! ## The recorded entries -/

/-- entries in ascending order, none before u and none inside of another -/
def Spaced : ℕ → List Cell → Prop
  | _, [] => True
  | u, c :: cs => u ≤ c.addr ∧ Spaced (c.addr + au_rdu_len c.ent.nlen) cs

theorem Spaced.mono {u v : ℕ} {cs : List Cell} (h : Spaced v cs) (huv : u ≤ v) : Spaced u cs := by
  cases cs with
  | nil => trivial
  | cons c cs => exact ⟨huv.trans h.1, h.2⟩

theorem recorded_spaced (shwh : Bool) (es : List RduEnt) :
    ∀ (seen : List Bytes) (u : ℕ), Spaced u (recorded shwh seen u es) := by
  induction es with
  | nil => exact fun seen u => trivial
  | cons e es ih =>
    intro seen u
    unfold recorded
    have hrest := ih (seen ++ [e.name]) (u + au_rdu_len e.nlen)
    by_cases hs : Shown shwh seen e.name
    · rw [if_pos hs]
      exact ⟨le_rfl, hrest⟩
    · rw [if_neg hs]
      exact hrest.mono (Nat.le_add_right _ _)

theorem recorded_at {m : Mem} (shwh : Bool) (es : List RduEnt) :
    ∀ (seen : List Bytes) (u : ℕ), Layout m u (es.map RduEnt.mark) →
      ∀ c ∈ recorded shwh seen u es, At m c.addr c.ent.image := by
  induction es with
  | nil =>
    intro seen u _ c hc
    simp [recorded] at hc
  | cons e es ih =>
    intro seen u hlay c hc
    unfold recorded at hc
    rcases List.mem_append.1 hc with hc | hc
    · by_cases hs : Shown shwh seen e.name
      · rw [if_pos hs, List.mem_singleton] at hc
        rw [hc]
        exact hlay.1
      · simp [hs] at hc
    · exact ih _ _ hlay.2 c hc

theorem recorded_length (shwh : Bool) (es : List RduEnt) :
    ∀ (seen : List Bytes) (u : ℕ), (recorded shwh seen u es).length ≤ es.length := by
  induction es with
  | nil => exact fun seen u => le_rfl
  | cons e es ih =>
    intro seen u
    have hrest := ih (seen ++ [e.name]) (u + au_rdu_len e.nlen)
    unfold recorded
    by_cases hs : Shown shwh seen e.name
    · rw [if_pos hs, List.length_append, List.length_singleton, List.length_cons]
      omega
    · rw [if_neg hs, List.nil_append, List.length_cons]
      omega

/-! ## The two loops -/

/-- the end of entries back to back from u on -/
def stop (u : ℕ) (es : List RduEnt) : ℕ := u + (es.map fun e => au_rdu_len e.nlen).sum

theorem stop_cons (u : ℕ) (e : RduEnt) (es : List RduEnt) : stop u (e :: es) = stop (u + au_rdu_len e.nlen) es := by
  simp [stop, Nat.add_assoc]

theorem starts_append (u : ℕ) (es fs : List RduEnt) : starts u (es ++ fs) = starts u es ++ starts (stop u es) fs := by
  induction es generalizing u with
  | nil => rfl
  | cons e es ih =>
    rw [List.cons_append, starts, starts, ih, stop_cons]
    rfl

theorem layout_append {m : Mem} {u : ℕ} {es fs : List RduEnt} :
    Layout m u (es ++ fs) ↔ Layout m u es ∧ Layout m (stop u es) fs := by
  induction es generalizing u with
  | nil => simp [Layout, stop]
  | cons e es ih =>
    rw [List.cons_append, Layout, Layout, ih, stop_cons, and_assoc]

/-- entries that stand somewhere in the buffer -/
def Standing (m : Mem) (cs : List Cell) : Prop := ∀ c ∈ cs, At m c.addr c.ent.image

/-- the first loop passes over the entries that are in place -/
theorem pass_spec {m : Mem} (cs : List Cell) :
    ∀ u, Spaced u cs → Standing m cs → ∃ ck cr, cs = ck ++ cr ∧
      pass m (cs.map Cell.addr) u = (ck.map Cell.addr, cr.map Cell.addr, stop u (ck.map Cell.ent)) ∧
      ck.map Cell.addr = starts u (ck.map Cell.ent) ∧ Layout m u (ck.map Cell.ent) ∧
      Spaced (stop u (ck.map Cell.ent)) cr := by
  induction cs with
  | nil => exact fun u _ _ => ⟨[], [], rfl, rfl, rfl, trivial, trivial⟩
  | cons c cs ih =>
    intro u hsp hst
    by_cases hu : c.addr = u
    · subst hu
      have hat := hst c List.mem_cons_self
      obtain ⟨ck, cr, rfl, hpass, hstarts, hlay, hrest⟩ :=
        ih (c.addr + au_rdu_len c.ent.nlen) hsp.2 fun d hd => hst d (List.mem_cons_of_mem c hd)
      refine ⟨c :: ck, cr, rfl, ?_, ?_, ⟨hat, hlay⟩, ?_⟩
      · rw [List.map_cons, pass, if_neg (not_not.2 rfl), nlen_of_at hat, hpass, List.map_cons, List.map_cons, stop_cons]
      · rw [List.map_cons, List.map_cons, starts, hstarts]
      · rw [List.map_cons, stop_cons]
        exact hrest
    · refine ⟨[], c :: cs, rfl, ?_, rfl, trivial, hsp⟩
      rw [List.map_cons, pass, if_pos hu]
      rfl

/-- none of the entries starts before the place the first one goes to -/
theorem Spaced.le_addr {v : ℕ} {ds : List Cell} (hv : Spaced v ds) : ∀ d ∈ ds, v ≤ d.addr := by
  induction ds generalizing v with
  | nil => simp
  | cons d ds ih =>
    intro e he
    rcases List.mem_cons.1 he with rfl | he
    · exact hv.1
    · calc v ≤ d.addr := hv.1
        _ ≤ d.addr + au_rdu_len d.ent.nlen := Nat.le_add_right _ _
        _ ≤ e.addr := ih hv.2 e he

/-- one move: the entry stands at u, the others behind it and everything before u is as it was -/
theorem move_spec {m : Mem} {u : ℕ} {c : Cell} {cs : List Cell} (hsp : Spaced u (c :: cs)) (hst : Standing m (c :: cs)) :
    At (memmove m u c.addr (au_rdu_len (nlen_at m c.addr))) u c.ent.image ∧
      nlen_at (memmove m u c.addr (au_rdu_len (nlen_at m c.addr))) u = c.ent.nlen ∧
      Standing (memmove m u c.addr (au_rdu_len (nlen_at m c.addr))) cs ∧
      Spaced (u + au_rdu_len c.ent.nlen) cs := by
  have hat := hst c List.mem_cons_self
  rw [nlen_of_at hat]
  have hmoved : At (memmove m u c.addr (au_rdu_len c.ent.nlen)) u c.ent.image := at_memmove hat (image_le c.ent)
  refine ⟨hmoved, nlen_of_at hmoved, ?_, hsp.2.mono (Nat.add_le_add_right hsp.1 _)⟩
  intro d hd
  have hge := hsp.2.le_addr d hd
  exact (hst d (List.mem_cons_of_mem c hd)).memmove (Or.inr ((Nat.add_le_add_right hsp.1 _).trans hge))

/-- the second loop writes nothing before u -/
theorem slide_frame {x : ℕ} {b : Bytes} (as : List ℕ) :
    ∀ (m : Mem) (u : ℕ), At m x b → x + b.length ≤ u → At (slide m as u).1 x b := by
  induction as with
  | nil => exact fun m u h _ => h
  | cons a as ih =>
    intro m u h hle
    exact ih _ _ (h.memmove (Or.inl hle)) (by omega)

/-- entries that end before v stand in every memory that has the same bytes before v -/
theorem Layout.frame {m m' : Mem} {v : ℕ} (h : ∀ (x : ℕ) (b : Bytes), At m x b → x + b.length ≤ v → At m' x b)
    {es : List RduEnt} : ∀ {u : ℕ}, Layout m u es → stop u es ≤ v → Layout m' u es := by
  induction es with
  | nil => exact fun _ _ => trivial
  | cons e es ih =>
    intro u hlay hle
    rw [stop_cons] at hle
    have hend : u + au_rdu_len e.nlen ≤ v := (Nat.le_add_right _ _).trans hle
    exact ⟨h u _ hlay.1 ((Nat.add_le_add_left (image_le e) u).trans hend), ih hlay.2 hle⟩

/-- **Moving entries down keeps them.** Entries in ascending order, the first not before u, end up back to back from u
on, and these are the pointers. -/
theorem slide_layout (cs : List Cell) : ∀ (m : Mem) (u : ℕ), Spaced u cs → Standing m cs →
    Layout (slide m (cs.map Cell.addr) u).1 u (cs.map Cell.ent) ∧
      (slide m (cs.map Cell.addr) u).2 = starts u (cs.map Cell.ent) := by
  induction cs with
  | nil => exact fun m u _ _ => ⟨trivial, rfl⟩
  | cons c cs ih =>
    intro m u hsp hst
    obtain ⟨hmoved, hnlen, hst', hsp'⟩ := move_spec hsp hst
    obtain ⟨hlay, hpos⟩ := ih _ _ hsp' hst'
    simp only [List.map_cons, slide, hnlen, Layout, starts]
    refine ⟨⟨?_, hlay⟩, by rw [hpos]⟩
    exact slide_frame _ _ _ hmoved (Nat.add_le_add_left (image_le c.ent) u)

/-- after k moves, the entries that were not moved yet stand where they stood -/
theorem unmoved_kept (k : ℕ) : ∀ (cs : List Cell) (m : Mem) (u : ℕ), Spaced u cs → Standing m cs →
    Standing (slide m ((cs.take k).map Cell.addr) u).1 (cs.drop k) := by
  induction k with
  | zero => exact fun cs m u _ hst => hst
  | succ k ih =>
    intro cs m u hsp hst
    cases cs with
    | nil =>
      intro c hc
      simp at hc
    | cons c cs =>
      obtain ⟨-, hnlen, hst', hsp'⟩ := move_spec hsp hst
      simp only [List.take_succ_cons, List.drop_succ_cons, List.map_cons, slide, hnlen]
      exact ih cs _ _ hsp' hst'

/-! ## rdu_merge -/

/-- npos is the number of the recorded entries S; pos[] goes from the start of the buffer from entry to entry, and the
i-th recorded entry is found at pos[i] -/
structure Keeps (ent : ℕ) (S : List Cell) (r : Compacted) : Prop where
  npos : r.pos.length = S.length
  first : S ≠ [] → r.pos[0]? = some ent
  next : ∀ (i a b : ℕ) (c : Cell), r.pos[i]? = some a → r.pos[i + 1]? = some b → S[i]? = some c →
    b = a + au_rdu_len c.ent.nlen
  entry : ∀ (i a : ℕ) (c : Cell), r.pos[i]? = some a → S[i]? = some c → At r.mem a c.ent.image

theorem length_starts (u : ℕ) (es : List RduEnt) : (starts u es).length = es.length := by
  induction es generalizing u with
  | nil => rfl
  | cons e es ih => rw [starts, List.length_cons, List.length_cons, ih]

theorem starts_next {u : ℕ} {es : List RduEnt} : ∀ {i a b : ℕ} {e : RduEnt}, (starts u es)[i]? = some a →
    (starts u es)[i + 1]? = some b → es[i]? = some e → b = a + au_rdu_len e.nlen := by
  induction es generalizing u with
  | nil =>
    intro i a b e ha
    simp [starts] at ha
  | cons f fs ih =>
    intro i a b e ha hb he
    rw [starts] at ha hb
    cases i with
    | zero =>
      rw [List.getElem?_cons_zero, Option.some.injEq] at ha he
      rw [List.getElem?_cons_succ] at hb
      cases fs with
      | nil => simp [starts] at hb
      | cons g gs =>
        rw [starts, List.getElem?_cons_zero, Option.some.injEq] at hb
        rw [← hb, ← ha, ← he]
    | succ i =>
      rw [List.getElem?_cons_succ] at ha hb he
      exact ih ha hb he

theorem Layout.entry {m : Mem} {u : ℕ} {es : List RduEnt} (h : Layout m u es) : ∀ {i a : ℕ} {e : RduEnt},
    (starts u es)[i]? = some a → es[i]? = some e → At m a e.image := by
  induction es generalizing u with
  | nil =>
    intro i a e ha
    simp [starts] at ha
  | cons f fs ih =>
    intro i a e ha he
    rw [starts] at ha
    cases i with
    | zero =>
      rw [List.getElem?_cons_zero, Option.some.injEq] at ha he
      rw [← ha, ← he]
      exact h.1
    | succ i =>
      rw [List.getElem?_cons_succ] at ha he
      exact ih h.2 ha he

theorem keeps_of_layout {ent : ℕ} {S : List Cell} {r : Compacted} (hpos : r.pos = starts ent (S.map Cell.ent))
    (hlay : Layout r.mem ent (S.map Cell.ent)) : Keeps ent S r := by
  refine ⟨?_, ?_, ?_, ?_⟩
  · rw [hpos, length_starts, List.length_map]
  · intro hne
    obtain ⟨c, cs, rfl⟩ := List.exists_cons_of_ne_nil hne
    rw [hpos]
    rfl
  · intro i a b c ha hb hc
    rw [hpos] at ha hb
    exact starts_next ha hb (by rw [List.getElem?_map, hc]; rfl)
  · intro i a c ha hc
    rw [hpos] at ha
    exact hlay.entry ha (by rw [List.getElem?_map, hc]; rfl)

/-- a turn of the loop writes one slot of pos[] at most -/
theorem merge_one_slots (E : MergeEnv) (ul u : ℕ) (e : RduEnt) (p : Merge) :
    (merge_one E ul u e p).2.pos.length ≤ p.pos.length + 1 := by
  unfold merge_one
  by_cases hpl : plain e = true
  · simp only [hpl, if_true]
    unfold rdu_ent_append
    split
    · exact Nat.le_succ _
    · split
      · simp only
        split_ifs
        · simp [rdu_store]
        · exact Nat.le_succ _
      · exact Nat.le_succ _
  · simp only [hpl, Bool.false_eq_true, if_false]
    unfold rdu_ent_append_wh
    dsimp only
    split
    · split_ifs
      · simp [rdu_store]
      · exact Nat.le_succ _
    · exact Nat.le_succ _

theorem merge_loop_slots (E : MergeEnv) (es : List RduEnt) : ∀ (ul u : ℕ) (p : Merge),
    (merge_loop E ul u es p).2.pos.length ≤ p.pos.length + es.length := by
  induction es with
  | nil => exact fun ul u p => le_rfl
  | cons e es ih =>
    intro ul u p
    have hone := merge_one_slots E ul u e p
    rw [merge_loop, List.length_cons]
    by_cases h0 : (merge_one E ul u e p).1 = 0
    · rw [if_pos h0]
      have := ih (ul + 1) (u + au_rdu_len e.nlen) (merge_one E ul u e p).2
      omega
    · rw [if_neg h0]
      omega

/-- all entries recorded: they are back to back already -/
theorem recorded_all (shwh : Bool) (es : List RduEnt) : ∀ (seen : List Bytes) (u : ℕ),
    (recorded shwh seen u es).length = es.length →
      (recorded shwh seen u es).map Cell.addr = starts u (es.map RduEnt.mark) ∧
        (recorded shwh seen u es).map Cell.ent = es.map RduEnt.mark := by
  induction es with
  | nil => exact fun seen u _ => ⟨rfl, rfl⟩
  | cons e es ih =>
    intro seen u hlen
    have hrest := recorded_length shwh es (seen ++ [e.name]) (u + au_rdu_len e.nlen)
    unfold recorded at hlen ⊢
    by_cases hs : Shown shwh seen e.name
    · rw [if_pos hs] at hlen ⊢
      obtain ⟨haddr, hent⟩ := ih (seen ++ [e.name]) (u + au_rdu_len e.nlen) (by simpa using hlen)
      refine ⟨?_, ?_⟩
      · rw [List.singleton_append, List.map_cons, haddr]
        rfl
      · rw [List.singleton_append, List.map_cons, hent]
        rfl
    · rw [if_neg hs, List.nil_append, List.length_cons] at hlen
      omega

/-- the recorded entries and the buffer before they are moved together -/
theorem rdu_merge_mem_eq (E : MergeEnv) (shwh : Bool) (ent : ℕ) (ents : List RduEnt) (m : Mem)
    (hok : (rdu_merge_mem E shwh ent ents m).err = 0) :
    (rdu_merge E shwh ent ents).2 = recorded shwh [] ent ents ∧
      rdu_merge_mem E shwh ent ents m =
        if ((recorded shwh [] ent ents).map Cell.addr).length = ents.length then
          ⟨0, flagged m ent ents, (recorded shwh [] ent ents).map Cell.addr⟩
        else
          let s := pass (flagged m ent ents) ((recorded shwh [] ent ents).map Cell.addr) ent
          let t := slide (flagged m ent ents) s.2.1 s.2.2
          ⟨0, t.1, s.1 ++ t.2⟩ := by
  obtain ⟨herr, hp, hmem⟩ := merge_loop_mem_eq E ents 0 ent ⟨shwh, [], .leaf, .leaf, true⟩ m
  by_cases hoom : E.pos_oom = true
  · simp [rdu_merge_mem, hoom] at hok
  by_cases h0 : (merge_loop E 0 ent ents ⟨shwh, [], .leaf, .leaf, true⟩).1 = 0
  · have hrec : (rdu_merge E shwh ent ents).2 = recorded shwh [] ent ents := by
      refine (rdu_merge_recorded E shwh ent ents).1 ?_
      simp [rdu_merge, hoom, h0]
    have hpos : (merge_loop E 0 ent ents ⟨shwh, [], .leaf, .leaf, true⟩).2.pos = recorded shwh [] ent ents := by
      rw [← hrec, rdu_merge, if_neg hoom, if_pos h0]
    refine ⟨hrec, ?_⟩
    rw [rdu_merge_mem, if_neg hoom]
    simp only [herr, hp, hmem h0, hpos]
    rw [if_neg (not_not.2 h0)]
  · rw [rdu_merge_mem, if_neg hoom] at hok
    simp only [herr] at hok
    rw [if_pos h0] at hok
    exact absurd hok h0

/-- **Moving the entries together preserves the listing.** For a buffer of entries back to back, when rdu_merge
succeeds: npos is the number of the recorded entries, pos[] goes from the start of the buffer from one to the next, and
the bytes of each are those it had in the buffer before; after any number of moves those that were not moved yet are
intact; and pos[] is never filled beyond the npos slots it was allocated with. -/
theorem compaction_keeps_listing (E : MergeEnv) (shwh : Bool) (ent : ℕ) (ents : List RduEnt) (m : Mem)
    (hlay : Layout m ent ents) (hok : (rdu_merge_mem E shwh ent ents m).err = 0) :
    let S := (rdu_merge E shwh ent ents).2
    let before := flagged m ent ents
    let s := pass before (S.map Cell.addr) ent
    Standing before S ∧ Keeps ent S (rdu_merge_mem E shwh ent ents m) ∧
      (∀ k, Standing (slide before (s.2.1.take k) s.2.2).1 (S.drop (s.1.length + k))) ∧
      ∀ k, (merge_loop E 0 ent (ents.take k) ⟨shwh, [], .leaf, .leaf, true⟩).2.pos.length ≤ ents.length := by
  obtain ⟨hS, hr⟩ := rdu_merge_mem_eq E shwh ent ents m hok
  have hflag := flagged_layout ents m ent hlay
  have hst : Standing (flagged m ent ents) (recorded shwh [] ent ents) := recorded_at shwh ents [] ent hflag
  have hsp := recorded_spaced shwh ents [] ent
  obtain ⟨ck, cr, hsplit, hpass, hkept, hlayk, hspr⟩ := pass_spec _ ent hsp hst
  have hstr : Standing (flagged m ent ents) cr := by
    intro c hc
    exact hst c (by rw [hsplit]; exact List.mem_append_right ck hc)
  intro S before s
  have hs : s = (ck.map Cell.addr, cr.map Cell.addr, stop ent (ck.map Cell.ent)) := by
    change pass (flagged m ent ents) ((rdu_merge E shwh ent ents).2.map Cell.addr) ent = _
    rw [hS, hpass]
  refine ⟨?_, ?_, ?_, ?_⟩
  · change Standing (flagged m ent ents) (rdu_merge E shwh ent ents).2
    rw [hS]
    exact hst
  · change Keeps ent (rdu_merge E shwh ent ents).2 _
    rw [hS, hr]
    by_cases hall : ((recorded shwh [] ent ents).map Cell.addr).length = ents.length
    · rw [List.length_map] at hall
      obtain ⟨haddr, hent⟩ := recorded_all shwh ents [] ent hall
      rw [if_pos (by rw [List.length_map]; exact hall)]
      exact keeps_of_layout (by rw [haddr, hent]) (by rw [hent]; exact hflag)
    · rw [if_neg hall, hpass]
      obtain ⟨hlayr, hposr⟩ := slide_layout cr (flagged m ent ents) _ hspr hstr
      have hmap : (recorded shwh [] ent ents).map Cell.ent = ck.map Cell.ent ++ cr.map Cell.ent := by
        rw [hsplit, List.map_append]
      refine keeps_of_layout ?_ ?_
      · rw [hmap, starts_append, ← hkept, ← hposr]
      · rw [hmap, layout_append]
        exact ⟨hlayk.frame (fun _ _ => slide_frame _ _ _) le_rfl, hlayr⟩
  · intro k
    have hdrop : S.drop (s.1.length + k) = cr.drop k := by
      change (rdu_merge E shwh ent ents).2.drop _ = _
      rw [hS, hsplit, hs, List.length_map, List.drop_append]
      simp
    have htake : (s.2.1.take k) = (cr.take k).map Cell.addr := by rw [hs, List.map_take]
    rw [hdrop, htake, hs]
    exact unmoved_kept k cr _ _ hspr hstr
  · intro k
    refine (merge_loop_slots E (ents.take k) 0 ent _).trans ?_
    simp

/-- memory with the entries back to back from u on -/
def filled : ℕ → List RduEnt → Mem
  | _, [] => fun _ => 0
  | u, e :: es => write (filled (u + au_rdu_len e.nlen) es) u e.image

theorem compaction_keeps_listing_two :
    Layout (filled 64 twoBranches.flatten) 64 twoBranches.flatten ∧
      (rdu_merge plainLibc false 64 twoBranches.flatten).2.length < twoBranches.flatten.length ∧
      Keeps 64 (rdu_merge plainLibc false 64 twoBranches.flatten).2
        (rdu_merge_mem plainLibc false 64 twoBranches.flatten (filled 64 twoBranches.flatten)) := by
  have hlay : Layout (filled 64 twoBranches.flatten) 64 twoBranches.flatten := by decide +kernel
  have hok : (rdu_merge_mem plainLibc false 64 twoBranches.flatten (filled 64 twoBranches.flatten)).err = 0 := by
    decide +kernel
  exact ⟨hlay, by decide +kernel, (compaction_keeps_listing plainLibc false 64 _ _ hlay hok).2.1⟩

end AufsUtil.Rdu
