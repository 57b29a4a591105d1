import Mathlib.Data.List.TakeWhile
import Mathlib.Data.Multiset.DershowitzManna
import GrammarEngine.Proofs.Scanner.Plan

/-!
# A measure of the text that is left

The text that a scanner has left may grow, since macros put text into it. But what a macro puts into
the line stands one level of expansions deeper than the call that it replaces, and no more than so
many levels are allowed. So each place of the line counts by the number of levels that are left to
it, its room, and the text that is left is the multiset of these. Replacing a call takes away places
with some room, and adds any number of places with less.

The places before the next call do not count, as nothing is put in there. Where the ends of
expansions are recorded too small, places count with more room than they have, but they do so
from the beginning.

Main results:

* `wellFounded_smaller` — the measure does not grow smaller for ever.
* `Rewritten.room_lt` — it grows smaller when a call is replaced.
* `Longer.room_le`, `Longer.left_lt` — and when the cursor moves on.
-/

namespace GrammarEngine

namespace Stream

-- ---------------------------------------------------------------------------
-- Room for expansions
-- ---------------------------------------------------------------------------

/-- How many expansions are open at a place of the line, when the cursor gets there. -/
def openAt (ends : List Int) (place : Nat) : Nat := (ends.dropWhile (· ≤ (place : Int))).length

/-- How many more expansions may be opened at each of `count` places of the line. -/
def rooms (depth : Nat) (ends : List Int) (start count : Nat) : Multiset Nat :=
  ((List.range' start count).map fun place => depth - openAt ends place : List Nat)

/-- No more expansions are open than are recorded. -/
theorem openAt_le (ends : List Int) (place : Nat) : openAt ends place ≤ ends.length :=
  (List.dropWhile_suffix _).length_le

/-- Expansions that have been forgotten before are not open further on. -/
theorem openAt_dropWhile (ends : List Int) {pos place : Nat} (h : pos ≤ place) :
    openAt (ends.dropWhile (· ≤ (pos : Int))) place = openAt ends place := by
  induction ends with
  | nil => rfl
  | cons stop ends ih =>
    by_cases hstop : stop ≤ (pos : Int)
    · have hstop' : stop ≤ (place : Int) := by omega
      rw [List.dropWhile_cons_of_pos (by simpa using hstop), ih]
      unfold openAt
      rw [List.dropWhile_cons_of_pos (by simpa using hstop')]
    · rw [List.dropWhile_cons_of_neg (by simpa using hstop)]

/-- Behind all ends nothing is open. -/
theorem openAt_of_ends_le {ends : List Int} {place : Nat}
    (h : ∀ stop ∈ ends, stop ≤ (place : Int)) : openAt ends place = 0 := by
  unfold openAt
  rw [List.length_eq_zero_iff, List.dropWhile_eq_nil_iff]
  exact fun stop hstop => decide_eq_true (h stop hstop)

section Rooms

variable {depth : Nat} {ends ends' : List Int}

/-- Places may be counted in two parts. -/
theorem rooms_add (start m n : Nat) :
    rooms depth ends start (m + n) = rooms depth ends start m + rooms depth ends (start + m) n := by
  unfold rooms
  rw [Multiset.coe_add, ← List.map_append, List.range'_append_1]

/-- Up to the same place there is more room from further back on. -/
theorem rooms_upto_le {start start' : Nat} (h : start ≤ start') (stop : Nat) :
    rooms depth ends start' (stop - start') ≤ rooms depth ends start (stop - start) := by
  rcases Nat.le_total start' stop with hstop | hstop
  · have hcount : stop - start = (start' - start) + (stop - start') := by omega
    rw [hcount, rooms_add, Nat.add_sub_cancel' h]
    exact Multiset.le_add_left _ _
  · rw [Nat.sub_eq_zero_of_le hstop]
    exact Multiset.zero_le _

/-- Places count alike where as many expansions are open. -/
theorem rooms_congr {start start' count : Nat}
    (h : ∀ i, i < count → openAt ends (start + i) = openAt ends' (start' + i)) :
    rooms depth ends start count = rooms depth ends' start' count := by
  unfold rooms
  rw [List.range'_eq_map_range, List.range'_eq_map_range, List.map_map, List.map_map]
  refine congrArg _ (List.map_congr_left fun i hi => ?_)
  exact congrArg (depth - ·) (h i (List.mem_range.mp hi))

/-- Behind all ends there is room for all expansions. -/
theorem rooms_of_ends_le {start : Nat} (h : ∀ stop ∈ ends, stop ≤ (start : Int)) (count : Nat) :
    rooms depth ends start count = Multiset.replicate count depth := by
  rw [Multiset.eq_replicate]
  constructor
  · simp [rooms]
  · intro room hroom
    obtain ⟨place, hplace, rfl⟩ := List.mem_map.mp (Multiset.mem_coe.mp hroom)
    have hle := (List.mem_range'_1.mp hplace).1
    rw [openAt_of_ends_le fun stop hstop => Int.le_trans (h stop hstop) (Int.ofNat_le.mpr hle),
      Nat.sub_zero]

end Rooms

-- ---------------------------------------------------------------------------
-- The measure
-- ---------------------------------------------------------------------------

/-- The room at the places of a stream from the next call on. -/
def room (depth : Nat) (s : Stream) : Multiset Nat :=
  (match s.cursor with
    | some c => rooms depth s.ends (Scanner.firstCall c) (c.line.length - Scanner.firstCall c)
    | none => 0) + Multiset.replicate s.unread.length depth

/-- How much text a stream has left. -/
def left (s : Stream) : Nat :=
  (match s.cursor with
    | some c => c.line.length - c.pos
    | none => 0) + s.unread.length

/-- A stream is smaller if it has less room, or else less text. -/
def Smaller : Multiset Nat × Nat → Multiset Nat × Nat → Prop :=
  Prod.Lex Multiset.IsDershowitzMannaLT (· < ·)

/-- **The measure is well-founded**, as a multiset and then a number. -/
theorem wellFounded_smaller : WellFounded Smaller :=
  Multiset.wellFounded_isDershowitzMannaLT.prod_lex Nat.lt_wfRel.wf

/-- Fewer rooms are smaller rooms. -/
theorem isDershowitzMannaLT_of_lt {M N : Multiset Nat} (h : M < N) : M.IsDershowitzMannaLT N := by
  obtain ⟨Z, rfl⟩ := Multiset.le_iff_exists_add.mp h.le
  refine ⟨M, 0, Z, fun hZ => ?_, (Multiset.add_zero M).symm, rfl,
    fun y hy => absurd hy (Multiset.notMem_zero y)⟩
  rw [hZ] at h
  exact h.ne (Multiset.add_zero M).symm

/-- What is smaller than some rooms is smaller than more. -/
theorem IsDershowitzMannaLT.trans_le {M N P : Multiset Nat}
    (h : M.IsDershowitzMannaLT N) (hle : N ≤ P) : M.IsDershowitzMannaLT P := by
  rcases hle.eq_or_lt with rfl | hlt
  · exact h
  · exact h.trans (isDershowitzMannaLT_of_lt hlt)

/-- And fewer rooms than those are smaller, too. -/
theorem isDershowitzMannaLT_of_le_of {M N P : Multiset Nat}
    (hle : M ≤ N) (h : N.IsDershowitzMannaLT P) : M.IsDershowitzMannaLT P := by
  rcases hle.eq_or_lt with rfl | hlt
  · exact h
  · exact (isDershowitzMannaLT_of_lt hlt).trans h

/-- With no more room, but less text, a stream is smaller. -/
theorem smaller_of_le {M N : Multiset Nat} {m n : Nat} (hle : M ≤ N) (hlt : m < n) :
    Smaller (M, m) (N, n) := by
  rcases hle.eq_or_lt with rfl | h
  · exact .right _ hlt
  · exact .left _ _ (isDershowitzMannaLT_of_lt h)

/-- Smaller stays smaller if the other grows. -/
theorem Smaller.trans_le {p : Multiset Nat × Nat} {M N : Multiset Nat} {m n : Nat}
    (h : Smaller p (M, m)) (hle : M ≤ N) (hle' : m ≤ n) : Smaller p (N, n) := by
  obtain ⟨P, l⟩ := p
  rcases h with ⟨_, _, h⟩ | ⟨_, h⟩
  · exact .left _ _ (IsDershowitzMannaLT.trans_le h hle)
  · exact smaller_of_le hle (Nat.lt_of_lt_of_le h hle')

/-- Growing smaller twice is growing smaller. -/
theorem Smaller.trans {p q r : Multiset Nat × Nat}
    (h : Smaller p q) (h' : Smaller q r) : Smaller p r := by
  obtain ⟨N, n⟩ := q
  obtain ⟨P, l⟩ := r
  rcases h' with ⟨_, _, h'⟩ | ⟨_, h'⟩
  · rcases h with ⟨_, _, h⟩ | ⟨_, h⟩
    · exact .left _ _ (h.trans h')
    · exact .left _ _ h'
  · exact h.trans_le le_rfl h'.le

-- ---------------------------------------------------------------------------
-- What makes a stream smaller
-- ---------------------------------------------------------------------------

/-- A stream whose expansions end within its line, and are not too many. -/
structure Bounded (depth : Nat) (s : Stream) : Prop where
  isOpen : s.isClosed = false
  ends_le : ∀ stop ∈ s.ends, stop ≤ (s.line.length : Int)
  depth_le : s.ends.length ≤ depth

variable {depth : Nat} {s s' : Stream} {c : Cursor} {start length : Nat} {more text : List Char}

/-- The room of a stream with a line: that behind the next call, and that of the text not yet
read. -/
theorem room_of_cursor (hc : s.cursor = some c) : s.room depth =
    rooms depth s.ends (Scanner.firstCall c) (c.line.length - Scanner.firstCall c) +
      Multiset.replicate s.unread.length depth := by
  unfold room
  rw [hc]

/-- The text that is left of a line, and of the rest. -/
theorem left_of_cursor (hc : s.cursor = some c) :
    s.left = c.line.length - c.pos + s.unread.length := by
  unfold left
  rw [hc]

/-- The text of the line that is read next counts as much before it is read. -/
theorem room_of_longer (hb : s.Bounded depth) (hc : s.cursor = some c)
    (hpos : c.pos < c.line.length) {unread : List Char} (hunread : s.unread = more ++ unread) :
    s.room depth =
      rooms depth s.ends (Scanner.firstCall c) ((c.line ++ more).length - Scanner.firstCall c) +
        Multiset.replicate unread.length depth := by
  have hfirst : Scanner.firstCall c ≤ c.line.length :=
    Scanner.firstCall_le (Nat.le_of_lt hpos) (.inr (Nat.le_refl _))
  have hends : ∀ stop ∈ s.ends, stop ≤ (c.line.length : Int) := fun stop hstop => by
    have hle := hb.ends_le stop hstop
    rw [line_of_cursor hc] at hle
    exact hle
  have hcount : (c.line ++ more).length - Scanner.firstCall c =
      c.line.length - Scanner.firstCall c + more.length := by
    rw [List.length_append]
    omega
  rw [room_of_cursor hc, hcount, rooms_add, Nat.add_sub_cancel' hfirst, rooms_of_ends_le hends,
    Multiset.add_assoc, ← Multiset.replicate_add, hunread, List.length_append]

/-- Reading on opens no expansion. -/
theorem Longer.bounded {pos : Nat} (hb : s.Bounded depth) (hc : s.cursor = some c)
    (h : s.Longer s' (c.seek pos) more) : s'.Bounded depth := by
  have hends : s'.ends = s.ends := congrArg (List.map Expansion.stop) h.expansions
  refine ⟨h.isClosed.trans hb.isOpen, fun stop hstop => ?_, hends ▸ hb.depth_le⟩
  rw [hends] at hstop
  have hle := hb.ends_le stop hstop
  rw [line_of_cursor hc] at hle
  rw [line_of_cursor h.cursor]
  show stop ≤ ((c.line ++ more).length : Int)
  rw [List.length_append]
  omega

/-- When the cursor moves on in the line, no places come to count that did not. -/
theorem Longer.room_le {pos : Nat} (hb : s.Bounded depth) (hc : s.cursor = some c)
    (hpos : c.pos < c.line.length) (h : s.Longer s' (c.seek pos) more)
    (hfirst : Scanner.firstCall c ≤ Scanner.firstCall ⟨c.line ++ more, pos⟩) :
    s'.room depth ≤ s.room depth := by
  have hends : s'.ends = s.ends := congrArg (List.map Expansion.stop) h.expansions
  rw [room_of_longer hb hc hpos h.unread, room_of_cursor h.cursor, hends]
  exact Multiset.add_le_add_right (rooms_upto_le hfirst _)

/-- A cursor that has moved on leaves less text. -/
theorem Longer.left_lt {pos : Nat} (hc : s.cursor = some c) (hpos : c.pos < c.line.length)
    (h : s.Longer s' (c.seek pos) more) (hlt : c.pos < pos) : s'.left < s.left := by
  rw [left_of_cursor hc, left_of_cursor h.cursor, h.unread]
  unfold Cursor.append Cursor.seek
  simp only [List.length_append]
  omega

/-- The length of a line in which a text has taken the place of a call. -/
theorem Rewritten.length_line (h : s.Rewritten s' c start length more text) :
    ((c.line ++ more).take start ++ text ++ (c.line ++ more).drop (start + length)).length +
      length = (c.line ++ more).length + text.length := by
  have hfits := h.fits
  rw [List.length_append, List.length_append, List.length_take, List.length_drop]
  omega

/-- Replacing a call opens one expansion, if it is allowed. -/
theorem Rewritten.bounded (hb : s.Bounded depth) (hc : s.cursor = some c)
    (h : s.Rewritten s' c start length more text)
    (hdepth : text ≠ [] → s.expansions.length < depth) : s'.Bounded depth := by
  have hlength := h.length_line
  have hfits := h.fits
  refine ⟨h.isClosed.trans hb.isOpen, fun stop hstop => ?_, ?_⟩
  · rw [line_of_cursor h.cursor]
    dsimp only
    rw [h.ends, List.mem_append, List.mem_map] at hstop
    rcases hstop with hnew | ⟨stop, hold, rfl⟩
    · unfold newEnds at hnew
      split at hnew
      · cases hnew
      · rw [List.mem_singleton] at hnew
        omega
    · have hle := hb.ends_le stop hold
      rw [line_of_cursor hc] at hle
      have hmore : c.line.length ≤ (c.line ++ more).length := by
        rw [List.length_append]
        exact Nat.le_add_right ..
      unfold endAfter
      split <;> omega
  · have hold : s.ends.length = s.expansions.length := List.length_map _
    have hle := hb.depth_le
    rw [h.ends, List.length_append, List.length_map]
    unfold newEnds
    split
    · simpa using hle
    · next hne =>
      have hlt := hdepth hne
      rw [List.length_singleton]
      omega

/-- Behind a text that is put in as many expansions are open as were behind the call. -/
theorem openAt_behind (ends : List Int) (i : Nat) :
    openAt (newEnds start text ++ ends.map (endAfter start (text.length - length)))
      (start + text.length + i) = openAt ends (start + length + i) := by
  have hnew :
      openAt (newEnds start text ++
        ends.map (endAfter start (text.length - length))) (start + text.length + i) =
        openAt (ends.map (endAfter start (text.length - length))) (start + text.length + i) := by
    unfold newEnds
    split
    · rfl
    · unfold openAt
      rw [List.singleton_append, List.dropWhile_cons_of_pos]
      simp only [decide_eq_true_eq]
      omega
  rw [hnew]
  unfold openAt
  rw [List.dropWhile_map, List.length_map]
  congr 2
  funext stop
  simp only [Function.comp_apply, decide_eq_decide]
  unfold endAfter
  split <;> omega

/-- In a text that is put in one more expansion is open than before. -/
theorem openAt_inside (ends : List Int) {place : Nat}
    (hplace : place < start + text.length) (htext : text ≠ []) :
    openAt (newEnds start text ++ ends.map (endAfter start (text.length - length))) place =
      ends.length + 1 := by
  unfold newEnds openAt
  rw [if_neg htext, List.singleton_append, List.dropWhile_cons_of_neg]
  · rw [List.length_cons, List.length_map]
  · simp only [decide_eq_true_eq]
    omega

/-- Replacing a call leaves less room: what is put in is one level deeper. -/
theorem Rewritten.room_lt (hb : s.Bounded depth) (hc : s.cursor = some c)
    (hpos : c.pos < c.line.length)
    (h : s.Rewritten s' c start length more text) (hdepth : text ≠ [] → s.expansions.length < depth)
    (hle : c.pos ≤ start) (hbegins : Scanner.callBegins ⟨c.line, start⟩ = true)
    (hnone : ∀ k, c.pos ≤ k → k < start → Scanner.callBegins ⟨c.line, k⟩ = false) :
    (s'.room depth).IsDershowitzMannaLT (s.room depth) := by
  have hfits := h.fits
  let line := (c.line ++ more).take start ++ text ++ (c.line ++ more).drop (start + length)
  have hlength : line.length + length = (c.line ++ more).length + text.length := h.length_line
  let rest := (c.line ++ more).length - (start + length)
  let behind := rooms depth s.ends (start + length) rest + Multiset.replicate s'.unread.length depth
  -- what was left: the call, and what is behind it
  have hold : s.room depth = behind + rooms depth s.ends start length := by
    have hcount : (c.line ++ more).length - start = length + rest := by omega
    rw [room_of_longer hb hc hpos h.unread, Scanner.firstCall_eq hle hbegins hnone, hcount,
      rooms_add, Multiset.add_assoc, Multiset.add_comm]
  -- what is left: the text, and what is behind it
  have hnew : s'.room depth ≤ behind + rooms depth s'.ends start text.length := by
    have hcount : line.length - start = text.length + rest := by omega
    have hfirst : start ≤ Scanner.firstCall ⟨line, c.pos⟩ := by
      refine Scanner.le_firstCall (show start ≤ line.length by omega) fun k hk hlt => ?_
      have htake : line.take start = c.line.take start := by
        have hstart := Nat.le_of_lt (Scanner.lt_length_of_callBegins hbegins)
        unfold line
        rw [List.append_assoc, List.take_append_of_le_length, List.take_take, Nat.min_self,
          List.take_append_of_le_length hstart]
        rw [List.length_take, List.length_append]
        omega
      exact Scanner.not_callBegins_of_take_eq hbegins htake hlt (hnone k hk hlt)
    have hbehind : rooms depth s'.ends (start + text.length) rest =
        rooms depth s.ends (start + length) rest :=
      rooms_congr fun i _ => by rw [h.ends, openAt_behind]
    rw [room_of_cursor h.cursor, Multiset.add_comm behind, ← Multiset.add_assoc, ← hbehind,
      ← rooms_add, ← hcount]
    exact Multiset.add_le_add_right (rooms_upto_le hfirst _)
  refine isDershowitzMannaLT_of_le_of hnew ⟨behind, _, _, fun hempty => ?_, rfl, hold,
    fun room hroom => ?_⟩
  · have hcard := congrArg Multiset.card hempty
    have hzero : length = 0 := by simpa [rooms] using hcard
    exact absurd hzero (Nat.ne_of_gt h.length_pos)
  · obtain ⟨place, hplace, rfl⟩ := List.mem_map.mp (Multiset.mem_coe.mp hroom)
    have hlt := (List.mem_range'_1.mp hplace).2
    have htext : text ≠ [] := by
      rintro rfl
      cases hplace
    have hroom' : depth - openAt s.ends start ∈ rooms depth s.ends start length :=
      Multiset.mem_coe.mpr (List.mem_map.mpr ⟨start, List.mem_range'_1.mpr ⟨Nat.le_refl _,
        Nat.lt_add_of_pos_right h.length_pos⟩, rfl⟩)
    refine ⟨_, hroom', ?_⟩
    have hends : s.ends.length = s.expansions.length := List.length_map _
    have hopen := openAt_le s.ends start
    have hdeep := hdepth htext
    rw [h.ends, openAt_inside s.ends hlt htext]
    omega

-- ---------------------------------------------------------------------------
-- The next line
-- ---------------------------------------------------------------------------

/-- Tidying forgets the expansions that end at the cursor or before. -/
theorem ends_cleanup (s : Stream) : s.cleanup.ends = s.ends.dropWhile (· ≤ (s.pos : Int)) := by
  unfold ends cleanup
  rw [List.dropWhile_map]
  rfl

/-- Tidying opens no expansion. -/
theorem Bounded.cleanup (hb : s.Bounded depth) : s.cleanup.Bounded depth := by
  have hsuffix : s.cleanup.ends <:+ s.ends := ends_cleanup s ▸ List.dropWhile_suffix _
  exact ⟨hb.isOpen, fun stop hstop => hb.ends_le stop (hsuffix.subset hstop),
    Nat.le_trans hsuffix.length_le hb.depth_le⟩

/-- Forgetting what is behind the cursor makes no difference. -/
theorem room_cleanup (hc : s.cursor = some c) : s.cleanup.room depth = s.room depth := by
  have hc' : s.cleanup.cursor = some c := hc
  rw [room_of_cursor hc, room_of_cursor hc', ends_cleanup, pos_of_cursor hc]
  refine congrArg (· + _) (rooms_congr fun i _ => openAt_dropWhile s.ends ?_)
  exact Nat.le_trans (Scanner.pos_le_firstCall c) (Nat.le_add_right ..)

/-- A new line has none open. -/
theorem Bounded.atNextLine (hb : s.Bounded depth) : s.atNextLine.Bounded depth :=
  ⟨hb.isOpen, fun _ hstop => absurd hstop List.not_mem_nil, Nat.zero_le depth⟩

/-- The next line counts no more than it did before it was read. -/
theorem atNextLine_le (s : Stream) (depth : Nat) :
    s.atNextLine.room depth ≤ s.room depth ∧ s.atNextLine.left ≤ s.left := by
  have hlines := congrArg List.length (readLine_append s.unread)
  rw [List.length_append] at hlines
  have hc : s.atNextLine.cursor = some ⟨(readLine s.unread).1, 0⟩ := rfl
  have hunread : s.atNextLine.unread = (readLine s.unread).2 := rfl
  have hends : s.atNextLine.ends = [] := rfl
  constructor
  · rw [room_of_cursor hc, hunread, hends,
      rooms_of_ends_le fun _ hstop => absurd hstop List.not_mem_nil, ← Multiset.replicate_add]
    refine le_trans (Multiset.replicate_le_replicate depth |>.mpr ?_) (Multiset.le_add_left _ _)
    dsimp only
    omega
  · rw [left_of_cursor hc, hunread]
    unfold left
    dsimp only
    omega

/-- **Where a token is scanned**, there is no more room and no more text than before. -/
theorem upcoming?_bounded (hb : s.Bounded depth) (h : s.upcoming? = some s') :
    s'.Bounded depth ∧ s'.room depth ≤ s.room depth ∧ s'.left ≤ s.left ∧
      ∃ c, s'.cursor = some c ∧ c.pos < c.line.length := by
  unfold upcoming? at h
  split at h
  · next hready =>
    obtain rfl := Option.some.inj h
    cases hc : s.cursor with
    | none =>
      rw [hc] at hready
      cases hready
    | some c =>
      rw [hc] at hready
      have hpos : c.pos < c.line.length := by simpa [Cursor.atEnd] using hready
      exact ⟨hb.cleanup, (room_cleanup hc).le, Nat.le_refl _, c, hc, hpos⟩
  · split at h
    · cases h
    · next hmore =>
      obtain rfl := Option.some.inj h
      have hc : s.atNextLine.cursor = some ⟨(readLine s.unread).1, 0⟩ := rfl
      obtain ⟨hroom, hleft⟩ := atNextLine_le s depth
      refine ⟨hb.atNextLine.cleanup, (room_cleanup hc).trans_le hroom, hleft, _, hc, ?_⟩
      exact List.length_pos_iff.mpr fun hline =>
        hmore (readLine_isEmpty.mp (List.isEmpty_iff.mpr hline))

end Stream

end GrammarEngine
