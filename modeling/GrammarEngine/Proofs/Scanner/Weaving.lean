import GrammarEngine.Proofs.Scanner.Reading
import GrammarEngine.Proofs.Scanner.Levels
import Mathlib.Data.List.Forall2
import Mathlib.Order.Lattice

/-!
# Where the characters of a line come from

A macro puts its text into the current line, and a call makes the line go on with the next ones if
it goes on there. So the characters of a line come from different places. This module tells how the
current line has come about, and with it for each character where it stands in the text that is read
(`Stream.Woven`); a character that a macro has put in stands nowhere. It tells, too, how far into
the text the calls have reached that stood behind the character.

A stream counts the lines that it has read, those that a call goes on in included
(`Stream.Numbered`). So its number is that of a character of the current line only as far as no call
behind that has reached a later line. Calls in front of the character make no difference, and
neither do the texts of the macros.

Main results:

* `Woven.chars` — a character that stands in the text is that of the text.
* `Woven.latest` — the last line that has been read is that of a character, or the one that the
  calls behind it have reached.
* `Woven.lineNo_eq` — so is the number of the stream.
-/

namespace GrammarEngine

-- ---------------------------------------------------------------------------
-- Lines of a text
-- ---------------------------------------------------------------------------

/-- The line that an offset of a text is in: one more than the line feeds in front of it. -/
def lineAt (text : List Char) (offset : Nat) : Nat := 1 + (text.take offset).count '\n'

variable {text : List Char}

/-- Further on in a text the line does not get smaller. -/
theorem lineAt_mono (text : List Char) : Monotone (lineAt text) := by
  intro i j hij
  unfold lineAt
  exact Nat.add_le_add_left ((List.take_prefix_take_left hij).sublist.count_le _) 1

/-- Offsets between two of one line are in that line, too. -/
theorem lineAt_eq_of_le {i j k : Nat} (hij : i ≤ j) (hjk : j ≤ k)
    (h : lineAt text i = lineAt text k) : lineAt text j = lineAt text k :=
  Nat.le_antisymm (lineAt_mono text hjk) (h ▸ lineAt_mono text hij)

namespace Stream

variable {s s' : Stream} {c : Cursor} {more : List Char}

/-- How much of a text has been read. -/
def taken (text : List Char) (s : Stream) : Nat := text.length - s.unread.length

/-- What is not yet read is the rear of the text. -/
theorem drop_taken (h : s.unread <:+ text) : text.drop (s.taken text) = s.unread := by
  obtain ⟨read, rfl⟩ := h
  unfold taken
  rw [List.length_append, Nat.add_sub_cancel, List.drop_left]

/-- Reading some of it moves the boundary on. -/
theorem taken_add (h : s.unread <:+ text) (hmore : s.unread = more ++ s'.unread) :
    s'.unread <:+ text ∧ s'.taken text = s.taken text + more.length := by
  obtain ⟨read, rfl⟩ := h
  refine ⟨⟨read ++ more, by rw [hmore, List.append_assoc]⟩, ?_⟩
  unfold taken
  rw [hmore]
  simp only [List.length_append]
  omega

/-- What has been read grows at its end. -/
theorem take_taken_add (h : s.unread <:+ text) (hmore : s.unread = more ++ s'.unread) :
    text.take (s.taken text + more.length) = text.take (s.taken text) ++ more := by
  rw [List.take_add, drop_taken h, hmore, List.take_left]

/-- All of the next line is in one line of the text. -/
theorem lineAt_next (h : s.unread <:+ text) {offset : Nat} (hle : s.taken text ≤ offset)
    (hlt : offset < s.taken text + (readLine s.unread).1.length) :
    lineAt text offset = 1 + (text.take (s.taken text)).count '\n' := by
  obtain ⟨k, rfl⟩ := Nat.exists_eq_add_of_le hle
  have hk : k < (readLine s.unread).1.length := Nat.lt_of_add_lt_add_left hlt
  have hnone : '\n' ∉ (readLine s.unread).1.take k := ((isLine_readLine s.unread).inside hk).1
  have htake : s.unread.take k = (readLine s.unread).1.take k := by
    conv_lhs => rw [← readLine_append s.unread, List.take_append_of_le_length (Nat.le_of_lt hk)]
  unfold lineAt
  rw [List.take_add, drop_taken h, htake, List.count_append, List.count_eq_zero_of_not_mem hnone]
  omega

-- ---------------------------------------------------------------------------
-- The number of a stream
-- ---------------------------------------------------------------------------

/-- The number of a stream is that of the last line that it has read from a text. -/
structure Numbered (text : List Char) (s : Stream) : Prop where
  suffix : s.unread <:+ text
  next : s.unread ≠ [] → s.lineNo = (text.take (s.taken text)).count '\n'
  latest : 0 < s.taken text → s.lineNo = lineAt text (s.taken text - 1)

/-- One more line is read. -/
theorem Numbered.further (h : s.Numbered text) (hmore : s.unread ≠ [])
    (hunread : s'.unread = (readLine s.unread).2)
    (hlineNo : s'.lineNo = s.lineNo + 1) : s'.Numbered text := by
  have hline : s.unread = (readLine s.unread).1 ++ s'.unread := by
    rw [hunread, readLine_append]
  obtain ⟨hsuffix, htaken⟩ := taken_add h.suffix hline
  have hpos : 0 < (readLine s.unread).1.length := by
    exact List.length_pos_iff.mpr fun hline =>
      hmore (readLine_isEmpty.mp (List.isEmpty_iff.mpr hline))
  refine ⟨hsuffix, fun hmore' => ?_, fun _ => ?_⟩
  · obtain ⟨body, hbody, hwhole⟩ := (isLine_readLine s.unread).whole (hunread ▸ hmore')
    rw [hlineNo, h.next hmore, htaken, take_taken_add h.suffix hline, hwhole, List.count_append,
      List.count_append, List.count_eq_zero_of_not_mem hbody]
    rfl
  · rw [hlineNo, h.next hmore, lineAt_next h.suffix (by omega) (by omega), Nat.add_comm]

/-- Lines that a call is read with are counted like all others. -/
theorem ReadsOn.numbered (hreads : s.ReadsOn c more s') (h : s.Numbered text) :
    s'.Numbered text := by
  induction hreads with
  | stays hc => exact h
  | further _ hmore hnone ih => exact ih.further hmore rfl rfl

-- ---------------------------------------------------------------------------
-- The characters of a line
-- ---------------------------------------------------------------------------

/-- How a character of a line has come about: where it stands in a text, if it stands there, and
which place of the text the calls have reached that stood behind it. -/
structure Thread where
  place : Option Nat
  reach : Nat
deriving DecidableEq, Repr

/-- A character in front of a call that has reached a place. -/
def Thread.before (reach : Nat) (d : Thread) : Thread := { d with reach := max d.reach reach }

/-- Some characters that follow one another in a text. -/
def stretch (start count : Nat) : List Thread := (List.range' start count).map fun i => ⟨some i, 0⟩

/-- The last place of some characters in a text. -/
def lastPlace (threads : List Thread) : Nat := (threads.map (·.place.getD 0)).foldr max 0

/-- The characters of a line that goes on with some more text. -/
def goingOn (text : List Char) (s : Stream) (threads : List Thread)
    (more : List Char) : List Thread :=
  threads ++ stretch (s.taken text) more.length

/-- How the current line of a stream has come about that reads from a text, character by
character. -/
inductive Woven (text : List Char) : Stream → List Thread → Prop
  /-- No line has been read. -/
  | unread {s : Stream} (hcursor : s.cursor = none) (hunread : s.unread = text) : Woven text s []
  /-- The next line has been read. -/
  | line {s : Stream} {threads : List Thread} (h : Woven text s threads) :
      Woven text s.atNextLine (stretch (s.taken text) (readLine s.unread).1.length)
  /-- The line is the same; the cursor may have moved, and expansions may have been forgotten. -/
  | same {s s' : Stream} {threads : List Thread} (h : Woven text s threads)
      (hline : s'.line = s.line) (hunread : s'.unread = s.unread) : Woven text s' threads
  /-- A call at the cursor has been refused. It has reached all that has been read for it, and no
  character stands behind it. -/
  | refused {s s' : Stream} {threads : List Thread} {c : Cursor} {more : List Char}
      (h : Woven text s threads) (hreads : s.ReadsOn c more s') :
      Woven text s'
        ((goingOn text s threads more).map
          (.before (lastPlace (stretch (s.taken text) more.length))))
  /-- A call at the cursor has been replaced by a text. It has reached the place of its
  last character. -/
  | replaced {s s₁ s' : Stream} {threads : List Thread} {c : Cursor} {more inserted : List Char}
      {call : Call} (h : Woven text s threads) (hreads : s.ReadsOn c more s₁)
      (hcall : Call.read? (c.append more).rest = some call) (hunread : s'.unread = s₁.unread)
      (hline : s'.line =
        (c.line ++ more).take c.pos ++ inserted ++ (c.line ++ more).drop (c.pos + call.length)) :
      Woven text s'
        (((goingOn text s threads more).take c.pos).map
            (.before (lastPlace (((goingOn text s threads more).drop c.pos).take call.length))) ++
          inserted.map (fun _ => ⟨none, 0⟩) ++
            (goingOn text s threads more).drop (c.pos + call.length))

variable {threads : List Thread} {d : Thread}

/-- The characters of a stretch stand in a row, and no call has reached behind them. -/
theorem mem_stretch {start count : Nat} :
    d ∈ stretch start count ↔ ∃ i, (start ≤ i ∧ i < start + count) ∧ d = ⟨some i, 0⟩ := by
  unfold stretch
  rw [List.mem_map]
  exact exists_congr fun i => and_congr List.mem_range'_1 eq_comm

/-- A stretch may be put together from two. -/
theorem stretch_add (start count more : Nat) :
    stretch start (count + more) = stretch start count ++ stretch (start + count) more := by
  unfold stretch
  rw [← List.map_append, List.range'_append_1]

/-- The last place is the largest one. -/
theorem lastPlace_cons (d : Thread) (threads : List Thread) :
    lastPlace (d :: threads) = max (d.place.getD 0) (lastPlace threads) := rfl

/-- No character stands behind the last place. -/
theorem le_lastPlace {i : Nat} (h : d ∈ threads) (hi : d.place = some i) :
    i ≤ lastPlace threads := by
  induction threads with
  | nil => cases h
  | cons e threads ih =>
    rw [lastPlace_cons]
    rcases List.mem_cons.mp h with rfl | h
    · rw [hi]
      exact Nat.le_max_left ..
    · exact Nat.le_trans (ih h) (Nat.le_max_right ..)

/-- A bound on all places is one on the last. -/
theorem lastPlace_le {bound : Nat} (h : ∀ d ∈ threads, ∀ i, d.place = some i → i ≤ bound) :
    lastPlace threads ≤ bound := by
  induction threads with
  | nil => exact Nat.zero_le bound
  | cons d threads ih =>
    rw [lastPlace_cons]
    refine Nat.max_le.mpr ⟨?_, ih fun e he => h e (List.mem_cons_of_mem _ he)⟩
    cases hplace : d.place with
    | none => exact Nat.zero_le bound
    | some i => exact h d List.mem_cons_self i hplace

/-- A line that is read on had a cursor. -/
theorem ReadsOn.cursor (h : s.ReadsOn c more s') : s.cursor = some c := by
  induction h with
  | stays hc => exact hc
  | further _ _ _ ih => exact ih

/-- Where a character stands in a text, it is that of the text. -/
def StandsAt (text : List Char) (d : Thread) (ch : Char) : Prop :=
  ∀ i, d.place = some i → text[i]? = some ch

/-- A stretch of what is read stands where it was read. -/
theorem standsAt_stretch {start : Nat} {rest : List Char} (h : text.drop start = more ++ rest) :
    List.Forall₂ (StandsAt text) (stretch start more.length) more := by
  induction more generalizing start with
  | nil => exact .nil
  | cons ch more ih =>
    unfold stretch
    rw [List.length_cons, List.range'_succ, List.map_cons]
    refine .cons ?_ (ih ?_)
    · rintro _ ⟨⟩
      rw [← List.head?_drop, h]
      rfl
    · rw [← List.tail_drop, h]
      rfl

/-- What stands in front of a call stays where it is. -/
theorem standsAt_before {line : List Char}
    (reach : Nat) (h : List.Forall₂ (StandsAt text) threads line) :
    List.Forall₂ (StandsAt text) (threads.map (.before reach)) line :=
  List.forall₂_map_left_iff.mpr h

/-- What a woven stream has left to read is the rear of its text. -/
theorem Woven.suffix (h : s.Woven text threads) : s.unread <:+ text := by
  induction h with
  | unread hcursor hunread => exact hunread ▸ List.suffix_refl _
  | @line s _ _ ih => exact List.IsSuffix.trans ⟨_, readLine_append s.unread⟩ ih
  | same _ hline hunread ih => exact hunread ▸ ih
  | refused _ hreads ih => exact (taken_add ih hreads.longer.unread).1
  | replaced _ hreads hcall hunread hline ih =>
    exact hunread ▸ (taken_add ih hreads.longer.unread).1

/-- A line that goes on keeps its characters in their places, and the new ones stand where they were
read. -/
theorem standsAt_goingOn (hsuffix : s.unread <:+ text)
    (hthreads : List.Forall₂ (StandsAt text) threads s.line) (hreads : s.ReadsOn c more s') :
    List.Forall₂ (StandsAt text) (goingOn text s threads more) (c.line ++ more) := by
  rw [line_of_cursor hreads.cursor] at hthreads
  exact List.rel_append hthreads
    (standsAt_stretch ((drop_taken hsuffix).trans hreads.longer.unread))

/-- **A character that stands in the text** is that of the text. -/
theorem Woven.chars (h : s.Woven text threads) : List.Forall₂ (StandsAt text) threads s.line := by
  induction h with
  | unread hcursor hunread =>
    unfold Stream.line
    rw [hcursor]
    exact .nil
  | @line s _ h ih =>
    exact standsAt_stretch ((drop_taken h.suffix).trans (readLine_append s.unread).symm)
  | same _ hline hunread ih => exact hline ▸ ih
  | refused h hreads ih =>
    rw [line_of_cursor hreads.longer.cursor]
    exact standsAt_before _ (standsAt_goingOn h.suffix ih hreads)
  | @replaced s s₁ s' _ c more inserted call h hreads hcall hunread hline ih =>
    have hall := standsAt_goingOn h.suffix ih hreads
    rw [hline]
    refine List.rel_append (List.rel_append ?_ ?_) (List.forall₂_drop _ hall)
    · exact standsAt_before _ (List.forall₂_take _ hall)
    · rw [List.forall₂_map_left_iff]
      exact List.forall₂_same.mpr fun _ _ _ hnone => absurd hnone (Option.some_ne_none _).symm

-- ---------------------------------------------------------------------------
-- How far the calls have reached
-- ---------------------------------------------------------------------------

/-- A line that goes on with nothing is the same. -/
theorem goingOn_nil : goingOn text s threads [] = threads := List.append_nil threads

/-- A line may go on step by step. -/
theorem goingOn_append (before new : List Char) : goingOn text s threads (before ++ new) =
    goingOn text s threads before ++ stretch (s.taken text + before.length) new.length := by
  unfold goingOn
  rw [List.length_append, stretch_add, List.append_assoc]

/-- The characters of a stretch by their number. -/
theorem getElem?_stretch {start count k : Nat} (hk : k < count) :
    (stretch start count)[k]? = some ⟨some (start + k), 0⟩ := by
  simp [stretch, hk]

/-- A line that goes on grows by what it goes on with. -/
theorem length_goingOn : (goingOn text s threads more).length = threads.length + more.length := by
  simp [goingOn, stretch]

/-- A call that can be read only with some more text ends in that text. -/
theorem call_ends {before new : List Char} {call : Call}
    (hnone : Call.read? (c.append before).rest = none)
    (hcall : Call.read? (c.append (before ++ new)).rest = some call) :
    c.line.length + before.length < c.pos + call.length ∧
      c.pos + call.length ≤ c.line.length + before.length + new.length := by
  have hlength (more : List Char) : (c.append more).rest.length =
      c.line.length + more.length - c.pos := by
    rw [Cursor.rest, Cursor.append, List.length_drop, List.length_append]
  have hpos := Call.length_pos hcall
  have hle := Call.length_le hcall
  rw [hlength, List.length_append] at hle
  refine ⟨?_, by omega⟩
  rcases Nat.lt_or_ge (c.line.length + before.length) c.pos with hlt | hge
  · omega
  · have hsplit : (c.append (before ++ new)).rest = (c.append before).rest ++ new := by
      rw [Cursor.rest, Cursor.rest, Cursor.append, Cursor.append, ← List.append_assoc]
      exact List.drop_append_of_le_length (by rw [List.length_append]; exact hge)
    have hlt := Call.length_lt_of_read? hnone (hsplit ▸ hcall)
    rw [hlength] at hlt
    omega

/-- The last line that has been read from a text is that of a character, or the one that the calls
behind the character have reached. -/
def Latest (text : List Char) (s : Stream) (d : Thread) : Prop :=
  ∀ i, d.place = some i → i < s.taken text ∧ d.reach < s.taken text ∧
    lineAt text (max i d.reach) = lineAt text (s.taken text - 1)

/-- Whether a character is from the latest line depends on how much has been read. -/
theorem Latest.of_taken (h : s.Latest text d) (htaken : s'.taken text = s.taken text) :
    s'.Latest text d := by
  unfold Latest
  rw [htaken]
  exact h

/-- A call makes no difference to a character if it reaches no further than has been read anyway. -/
theorem Latest.before {reach : Nat} (h : s.Latest text d) (hreach : reach ≤ s.taken text - 1) :
    s.Latest text (d.before reach) := by
  intro i hi
  obtain ⟨hplace, hless, hline⟩ := h i hi
  have hmax : (d.before reach).reach = max d.reach reach := rfl
  refine ⟨hplace, by omega, ?_⟩
  rw [hmax]
  exact lineAt_eq_of_le (max_le_max_left i (Nat.le_max_left ..)) (by omega) hline

/-- A call that reaches the last line that has been read makes it the one that the calls
have reached. -/
theorem latest_before {reach : Nat}
    (hreads : ∀ i, d.place = some i → i < s.taken text ∧ d.reach < s.taken text)
    (hreach : reach ≤ s.taken text - 1)
    (hline : lineAt text reach = lineAt text (s.taken text - 1)) :
    s.Latest text (d.before reach) := by
  intro i hi
  obtain ⟨hplace, hless⟩ := hreads i hi
  have hmax : (d.before reach).reach = max d.reach reach := rfl
  refine ⟨hplace, by omega, ?_⟩
  rw [hmax]
  exact lineAt_eq_of_le (Nat.le_trans (Nat.le_max_right ..) (Nat.le_max_right ..)) (by omega) hline

/-- No character stands in the text that is not yet read, and no call has reached that. -/
theorem read_goingOn (h : ∀ d ∈ threads, s.Latest text d)
    (htaken : s'.taken text = s.taken text + more.length) :
    ∀ d ∈ goingOn text s threads more,
      ∀ i, d.place = some i → i < s'.taken text ∧ d.reach < s'.taken text := by
  intro d hd i hi
  rcases List.mem_append.mp hd with hd | hd
  · obtain ⟨hplace, hreach, -⟩ := h d hd i hi
    omega
  · obtain ⟨j, ⟨-, hlt⟩, rfl⟩ := mem_stretch.mp hd
    obtain rfl := Option.some.inj hi
    rw [htaken]
    exact ⟨hlt, Nat.zero_lt_of_lt hlt⟩

/-- All of the line that has been read last is in one line of the text. -/
theorem lineAt_of_mem_stretch (hsuffix : s.unread <:+ text)
    (hunread : s'.unread = (readLine s.unread).2)
    (hd : d ∈ stretch (s.taken text) (readLine s.unread).1.length) :
    ∃ i, d = ⟨some i, 0⟩ ∧ i < s'.taken text ∧ lineAt text i = lineAt text (s'.taken text - 1) := by
  have hline : s.unread = (readLine s.unread).1 ++ s'.unread := by
    rw [hunread, readLine_append]
  obtain ⟨-, htaken⟩ := taken_add hsuffix hline
  obtain ⟨i, ⟨hle, hlt⟩, rfl⟩ := mem_stretch.mp hd
  refine ⟨i, rfl, by omega, ?_⟩
  rw [lineAt_next hsuffix hle hlt, lineAt_next hsuffix (by omega) (by omega)]

/-- All characters of a new line are from the latest one. -/
theorem latest_of_mem_stretch (hsuffix : s.unread <:+ text)
    (hunread : s'.unread = (readLine s.unread).2)
    (hd : d ∈ stretch (s.taken text) (readLine s.unread).1.length) : s'.Latest text d := by
  obtain ⟨j, rfl, hlt, hline⟩ := lineAt_of_mem_stretch hsuffix hunread hd
  intro i hi
  obtain rfl := Option.some.inj hi
  rw [Nat.max_zero]
  exact ⟨hlt, Nat.zero_lt_of_lt hlt, hline⟩

/-- Where a call goes on in another line, it has reached the last line that has been read, and all
that stands behind it is in that line, too. -/
theorem ReadsOn.reaches (hsuffix : s.unread <:+ text) (hthreads : threads.length = c.line.length)
    (hreads : s.ReadsOn c more s') {call : Call}
    (hcall : Call.read? (c.append more).rest = some call) :
    (more = [] ∧ s' = s) ∨
      (∃ i, ⟨some i, 0⟩ ∈ ((goingOn text s threads more).drop c.pos).take call.length ∧
        lineAt text i = lineAt text (s'.taken text - 1)) ∧
      ∀ d ∈ (goingOn text s threads more).drop (c.pos + call.length), s'.Latest text d := by
  cases hreads with
  | stays hc => exact .inl ⟨rfl, rfl⟩
  | @further before s₁ h hmore hnone =>
    obtain ⟨hsuffix₁, htaken₁⟩ := taken_add hsuffix h.longer.unread
    obtain ⟨hbehind, hend⟩ := call_ends hnone hcall
    have hpos := Call.length_pos hcall
    have hlength : (goingOn text s threads before).length = c.line.length + before.length := by
      rw [length_goingOn, hthreads]
    rw [goingOn_append, ← htaken₁]
    have hunread : (s₁.grown (c.append before)).unread = (readLine s₁.unread).2 := rfl
    refine .inr ⟨?_, fun d hd => latest_of_mem_stretch hsuffix₁ hunread ?_⟩
    · -- the last character of the call
      have hk : c.pos + (call.length - 1) - (c.line.length + before.length) <
          (readLine s₁.unread).1.length := by omega
      have hlast : (stretch (s₁.taken text) (readLine s₁.unread).1.length)[c.pos +
          (call.length - 1) - (c.line.length + before.length)]? = some ⟨some _, 0⟩ :=
            getElem?_stretch hk
      obtain ⟨i, heq, -, hline⟩ :=
        lineAt_of_mem_stretch hsuffix₁ hunread (List.mem_of_getElem? hlast)
      rw [heq] at hlast
      refine ⟨i, List.mem_of_getElem? (i := call.length - 1) ?_, hline⟩
      rw [List.getElem?_take_of_lt (by omega), List.getElem?_drop,
        List.getElem?_append_right (by omega), hlength, hlast]
    · rw [List.drop_append, List.drop_eq_nil_of_le (by omega), List.nil_append] at hd
      exact List.mem_of_mem_drop hd

/-- A call that is replaced leaves the characters in front of it, and those behind it. -/
theorem latest_replaced (hsuffix : s.unread <:+ text) (hthreads : threads.length = c.line.length)
    (h : ∀ d ∈ threads, s.Latest text d) (hreads : s.ReadsOn c more s') {call : Call}
    (hcall : Call.read? (c.append more).rest = some call) :
    (∀ d ∈ (goingOn text s threads more).take c.pos,
      s'.Latest text
        (d.before (lastPlace (((goingOn text s threads more).drop c.pos).take call.length)))) ∧
    ∀ d ∈ (goingOn text s threads more).drop (c.pos + call.length), s'.Latest text d := by
  have hread := read_goingOn h (taken_add hsuffix hreads.longer.unread).2
  have hcalled : lastPlace (((goingOn text s threads more).drop c.pos).take call.length) ≤
      s'.taken text - 1 :=
    lastPlace_le fun d hd i hi =>
      Nat.le_sub_one_of_lt (hread d (List.mem_of_mem_drop (List.mem_of_mem_take hd)) i hi).1
  rcases hreads.reaches hsuffix hthreads hcall with ⟨rfl, rfl⟩ | ⟨⟨i, hi, hline⟩, hbehind⟩
  · rw [goingOn_nil] at hcalled ⊢
    exact ⟨fun d hd => (h d (List.mem_of_mem_take hd)).before hcalled, fun d hd =>
      h d (List.mem_of_mem_drop hd)⟩
  · refine ⟨fun d hd => latest_before (hread d (List.mem_of_mem_take hd)) hcalled ?_, hbehind⟩
    exact lineAt_eq_of_le (le_lastPlace hi rfl) hcalled hline

/-- **The last line that has been read** is that of a character of the current line, or the one that
the calls behind the character have reached. -/
theorem Woven.latest (h : s.Woven text threads) : ∀ d ∈ threads, s.Latest text d := by
  induction h with
  | unread hcursor hunread => exact fun d hd => absurd hd List.not_mem_nil
  | line h ih => exact fun d hd => latest_of_mem_stretch h.suffix rfl hd
  | same h hline hunread ih => exact fun d hd => (ih d hd).of_taken (by rw [taken, taken, hunread])
  | @refused s s' threads c more h hreads ih =>
    obtain ⟨-, htaken⟩ := taken_add h.suffix hreads.longer.unread
    refine List.forall_mem_map.mpr fun d hd => ?_
    by_cases hmore : more = []
    · subst hmore
      rw [goingOn_nil] at hd
      exact ((ih d hd).of_taken htaken).before (Nat.zero_le _)
    · -- all that has been read for the call is in front of what is not yet read
      have hpos := List.length_pos_iff.mpr hmore
      have hlast : lastPlace (stretch (s.taken text) more.length) = s'.taken text - 1 := by
        refine Nat.le_antisymm (lastPlace_le fun e he i hi => ?_)
          (le_lastPlace (mem_stretch.mpr ⟨s'.taken text - 1, by omega, rfl⟩) rfl)
        obtain ⟨j, hj, rfl⟩ := mem_stretch.mp he
        obtain rfl := Option.some.inj hi
        omega
      exact latest_before (read_goingOn ih htaken d hd) hlast.le (by rw [hlast])
  | @replaced s s₁ s' threads c more inserted call h hreads hcall hunread hline ih =>
    have htaken : s'.taken text = s₁.taken text := by rw [taken, taken, hunread]
    have hlength : threads.length = c.line.length := by
      rw [← line_of_cursor hreads.cursor]
      exact h.chars.length_eq
    obtain ⟨hfront, hbehind⟩ := latest_replaced h.suffix hlength ih hreads hcall
    intro d hd
    rcases List.mem_append.mp hd with hd | hd
    · rcases List.mem_append.mp hd with hd | hd
      · obtain ⟨d₀, hd₀, rfl⟩ := List.mem_map.mp hd
        exact (hfront d₀ hd₀).of_taken htaken
      · -- what the macro has put in stands nowhere
        obtain ⟨_, -, rfl⟩ := List.mem_map.mp hd
        exact fun i hi => absurd hi (Option.some_ne_none i).symm
    · exact (hbehind d hd).of_taken htaken

/-- The number of a stream is that of a character of its current line, or of the line that the calls
behind the character have reached. -/
theorem Woven.lineNo_eq (h : s.Woven text threads) (hnumbered : s.Numbered text) {i : Nat}
    (hd : d ∈ threads)
    (hi : d.place = some i) : s.lineNo = max (lineAt text i) (lineAt text d.reach) := by
  obtain ⟨hlt, -, hline⟩ := h.latest d hd i hi
  rw [hnumbered.latest (Nat.zero_lt_of_lt hlt), ← hline, (lineAt_mono text).map_max]

end Stream

end GrammarEngine
