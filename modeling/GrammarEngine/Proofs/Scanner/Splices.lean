import GrammarEngine.Proofs.Regex.Forward
import GrammarEngine.Proofs.Scanner.Rounds
import Mathlib.Data.List.Forall2

/-!
# Where the ends of expansions go

Where text is put into a line, what is behind it moves, and the ends of the open expansions have to
go along. An end is an offset in the line, and it moves if it lies behind the place where the text
is put in. So an expansion that goes on behind the replaced characters ends in front of the same
text as before, and one that ends before them stays where it is. Only an end in the midst of them
has no place to go to.

No offset is compared with the length of the line. If the cursor has been moved beyond the end of
its line, a text is put in at the end all the same, and the cursor and the end of a new expansion go
to where the offsets tell, which is not where the text is. But nothing except moving the cursor
there leads to such a state.

Main results:

* `Expansion.tracks_shift` — what becomes of the end of an expansion, and of the text around it.
* `ends_stay_on_text` — what putting in a text or a macro does to the line, the cursor and the ends.
* `ends_astray_beyond_line` — beyond the end of the line the cursor and the ends go astray.
* `Worked.fits` — all other work on a stream leaves the cursor and the ends in the line.
* `InExpansion.tail` — what stands behind an expansion stays, however often text is replaced
  in the expansion.
-/

namespace GrammarEngine

-- ---------------------------------------------------------------------------
-- One expansion
-- ---------------------------------------------------------------------------

/-- What becomes of an expansion when the characters from `start` to the cursor are replaced by
`count` others. -/
structure Expansion.Tracks (c : Cursor) (start count : Nat) (line' : List Char)
    (e e' : Expansion) : Prop where
  /-- Nothing but its end moves. -/
  same : e' = { e with stop := e'.stop }
  /-- An end behind the replaced characters stays as far behind them as it was, in front of
  the same text. -/
  behind : (start : Int) < e.stop → (c.pos : Int) ≤ e.stop →
    e'.stop = ((start + count : Nat) : Int) + (e.stop - c.pos) ∧
    line'.drop e'.stop.toNat = c.line.drop e.stop.toNat
  /-- An end before them does not move, nor does the text in front of it. -/
  before : e.stop ≤ (start : Int) →
    e'.stop = e.stop ∧ (e.stop ≤ (c.line.length : Int) →
      line'.take e.stop.toNat = c.line.take e.stop.toNat)

/-- **What becomes of an end** by shifting it: it is tracked. -/
theorem Expansion.tracks_shift (c : Cursor) {length : Nat}
    (hlength : length ≤ c.pos) (text : List Char) (e : Expansion) :
    e.Tracks c (c.pos - length) text.length (c.splice length text).line
      (e.shift (c.pos - length) (text.length - length)) := by
  have hshift := e.shift_stop (c.pos - length) (text.length - length)
  refine ⟨?_, fun hstart hbehind => ?_, fun hbefore => ?_⟩
  · unfold shift
    split <;> rfl
  · rw [if_pos hstart] at hshift
    -- how far behind the cursor the end is, which is as far behind the new text
    obtain ⟨n, hn⟩ := Int.eq_ofNat_of_zero_le (Int.sub_nonneg_of_le hbehind)
    have hold : e.stop.toNat = c.pos + n := by omega
    have hnew : (e.shift (c.pos - length) (text.length - length)).stop.toNat =
        c.pos - length + text.length + n := by
      omega
    refine ⟨by omega, ?_⟩
    rw [hold, hnew]
    exact c.drop_splice length text n
  · rw [if_neg (Int.not_lt.mpr hbefore)] at hshift
    exact ⟨hshift, fun hline => c.take_splice length text (by omega) (by omega)⟩

namespace Stream

variable {s s' : Stream} {c : Cursor} {e : Expansion} {k length : Nat} {text more : List Char}

-- ---------------------------------------------------------------------------
-- Putting in a text or a macro
-- ---------------------------------------------------------------------------

/-- A stream in which the `length` characters in front of the cursor have been replaced by a text;
`older` are the expansions that had been open before. -/
structure Injected (s s' : Stream) (c : Cursor) (length : Nat) (text : List Char)
    (older : List Expansion) : Prop where
  cursor : s'.cursor =
    some ⟨c.line.take (c.pos - length) ++ text ++ c.line.drop c.pos, c.pos - length⟩
  /-- The cursor is in front of the text, unless the line ended before. -/
  atText : c.pos - length ≤ c.line.length → s'.line.drop s'.pos = text ++ c.line.drop c.pos
  older : List.Forall₂ (Expansion.Tracks c (c.pos - length) text.length s'.line) s.expansions older
  others : { s' with cursor := s.cursor, expansions := s.expansions } = s

/-- An expansion that has been opened for a text ends just behind the text, unless the line
ended before. -/
structure Opens (s' : Stream) (c : Cursor) (length : Nat) (text : List Char)
    (e : Expansion) : Prop where
  stop : e.stop = ((c.pos - length + text.length : Nat) : Int)
  upTo : c.pos - length ≤ c.line.length →
    s'.line.take e.stop.toNat = c.line.take (c.pos - length) ++ text
  behind : s'.line.drop e.stop.toNat = c.line.drop c.pos

/-- A stream whose cursor and ends have gone where the splice leads is one with the text
injected. -/
theorem injected_of_splice (hlength : length ≤ c.pos)
    (hcursor : s'.cursor = some (c.splice length text))
    (hothers : { s' with cursor := s.cursor, expansions := s.expansions } = s) :
    s.Injected s' c length text (s.replaced c text length).expansions := by
  refine ⟨hcursor, fun hinside => ?_, ?_, hothers⟩
  · rw [line_of_cursor hcursor, pos_of_cursor hcursor]
    exact c.splice_rest length text hinside
  · rw [line_of_cursor hcursor]
    exact List.forall₂_map_right_iff.mpr (List.forall₂_same.mpr fun e _ =>
      e.tracks_shift c hlength text)

/-- An expansion that ends where the text was put in ends just behind it, and in front of what stood
at the cursor. -/
theorem opens_of_splice (hcursor : s'.cursor = some (c.splice length text))
    (hstop : e.stop = ((c.pos - length + text.length : Nat) : Int)) : s'.Opens c length text e := by
  have hline := line_of_cursor hcursor
  have htoNat : e.stop.toNat = c.pos - length + text.length := by rw [hstop, Int.toNat_natCast]
  refine ⟨hstop, fun hinside => ?_, ?_⟩
  · rw [hline, htoNat]
    exact c.take_splice_end length text hinside
  · rw [hline, htoNat]
    exact c.drop_splice length text 0

/-- **Putting in a text or a macro.** Of the line the part before the replaced characters stays and
the part behind the cursor; the cursor goes to the start of the text, and the expansions go on
ending where they did. A macro is put in if and only if fewer expansions are open than are allowed,
and its expansion ends with its text. -/
theorem ends_stay_on_text (hc : s.cursor = some c) (hlength : length ≤ c.pos) (text : String) :
    (∃ s', (injectText text.toList length).Returns s (c.pos - length + text.toList.length) s' ∧
      s.Injected s' c length text.toList s'.expansions) ∧
    ∀ definition args maxDepth,
      (s.expansions.length < maxDepth → ∃ s' e older,
        (injectMacro definition args text length maxDepth).Returns s true s' ∧ s'.expansions =
          e :: older ∧ s.Injected s' c length text.toList older ∧ s'.Opens c length text.toList e ∧
        e = ⟨definition, args, text, e.stop⟩) ∧
      (maxDepth ≤ s.expansions.length →
        (injectMacro definition args text length maxDepth).Returns s false s) := by
  refine ⟨?_, fun definition args maxDepth => ⟨fun hroom => ?_, fun hfull => ?_⟩⟩
  · have hleaves : (injectText text.toList length).Leaves s fun r t =>
        r = .ok (c.pos - length + text.toList.length) ∧ t = s.replaced c text.toList length := by
      rw [leaves_injectText hc]
      exact ⟨rfl, rfl⟩
    obtain ⟨s', hreturns, rfl⟩ := hleaves.returns
    exact ⟨_, hreturns, injected_of_splice hlength rfl rfl⟩
  · have hleaves : (injectMacro definition args text length maxDepth).Leaves s fun r t =>
        r = .ok true ∧ t = s.opened c definition args text length := by
      rw [leaves_injectMacro hc, if_neg (Nat.not_le_of_lt hroom)]
      exact ⟨rfl, rfl⟩
    obtain ⟨s', hreturns, rfl⟩ := hleaves.returns
    exact ⟨_, _, _, hreturns, rfl, injected_of_splice hlength rfl rfl, opens_of_splice rfl rfl, rfl⟩
  · have hleaves : (injectMacro definition args text length maxDepth).Leaves s fun r t =>
        r = .ok false ∧ t = s := by
      rw [leaves_injectMacro hc, if_pos hfull]
      exact ⟨rfl, rfl⟩
    obtain ⟨s', hreturns, rfl⟩ := hleaves.returns
    exact hreturns

-- ---------------------------------------------------------------------------
-- Siblings, and a place beyond the line
-- ---------------------------------------------------------------------------

/-- A cursor behind two expansions: the text of the first one ends where that of the second begins,
and both lie in a third one, which goes on behind the cursor. -/
private def abutting : Stream :=
  let expansion (name : String) (stop : Int) : Expansion := ⟨⟨name, "", none⟩, [name], "", stop⟩
  { name := "", origin := .label, unread := [], cursor := some ⟨"pqrstu".toList, 4⟩
    expansions := [expansion "inner" 4, expansion "sibling" 2, expansion "outer" 6] }

/-- Where their ends go when the text of the second one is replaced by a longer one. -/
private theorem ends_of_siblings {line' : List Char} {older : List Expansion}
    (h : List.Forall₂ (Expansion.Tracks ⟨"pqrstu".toList, 4⟩ 2 3 line') abutting.expansions older) :
    older.map Expansion.stop = [4 + 1, 2, 6 + 1] ∧ line'.drop 5 = "tu".toList ∧
      line'.take 2 = "pq".toList := by
  cases h with
  | cons hinner h =>
  cases h with
  | cons hsibling h =>
  cases h with
  | cons houter h =>
  cases h
  obtain ⟨hinner, htail⟩ := hinner.behind (by decide) (by decide)
  obtain ⟨hsibling, hfront⟩ := hsibling.before (by decide)
  obtain ⟨houter, -⟩ := houter.behind (by decide) (by decide)
  rw [hinner] at htail
  refine ⟨?_, htail, hfront (by decide)⟩
  rw [List.map_cons, List.map_cons, List.map_cons, hinner, hsibling, houter]
  rfl

/-- The text of the second one is replaced by a longer one, and then by a macro, if one
more may be open. -/
theorem ends_stay_on_text_siblings : abutting.cursor = some ⟨"pqrstu".toList, 4⟩ ∧ 2 ≤ 4 ∧
    (∃ s', (injectText "xyz".toList 2).Returns abutting 5 s' ∧
      s'.cursor = some ⟨"pqxyztu".toList, 2⟩ ∧ s'.expansions.map Expansion.stop = [5, 2, 7] ∧
      s'.line.drop 5 = "tu".toList ∧ s'.line.take 2 = "pq".toList) ∧
    (∃ s', (injectMacro ⟨"m", "xyz", none⟩ ["m"] "xyz" 2 4).Returns abutting true s' ∧
      s'.cursor = some ⟨"pqxyztu".toList, 2⟩ ∧ s'.expansions.map Expansion.stop = [5, 5, 2, 7] ∧
      s'.line.take 5 = "pqxyz".toList) ∧
    (injectMacro ⟨"m", "xyz", none⟩ ["m"] "xyz" 2 3).Returns abutting false abutting := by
  obtain ⟨⟨s', htext, hinjected⟩, hrooms⟩ :=
    ends_stay_on_text (show abutting.cursor = some ⟨"pqrstu".toList, 4⟩ from rfl)
      (show 2 ≤ 4 by decide) "xyz"
  obtain ⟨hends, htail, hfront⟩ := ends_of_siblings hinjected.older
  obtain ⟨s'', e, older, hput, hexpansions, hinjected', hopens, -⟩ :=
    (hrooms ⟨"m", "xyz", none⟩ ["m"] 4).1 (by decide)
  have hstop := hopens.stop
  have hupTo := hopens.upTo (by decide)
  rw [hstop] at hupTo
  refine ⟨rfl, by decide, ⟨s', htext, hinjected.cursor, hends, htail, hfront⟩,
    ⟨s'', hput, hinjected'.cursor, ?_, hupTo⟩, (hrooms ⟨"m", "xyz", none⟩ ["m"] 3).2 (by decide)⟩
  rw [hexpansions, List.map_cons, hstop, (ends_of_siblings hinjected'.older).1]
  rfl

/-- A stream whose cursor has been moved beyond the end of its line. -/
private def beyond : Stream :=
  ((do discard readyNextLine; seek 5 : Run Stream Unit).run (ofText "ab\n" "<buffer>")).state

/-- Where a macro has been put in there. -/
private def astray : Stream := ((injectMacro ⟨"m", "x", none⟩ ["m"] "x" 0 20).run beyond).state

/-- **Beyond the end of a line** a text is put in at the end, while the cursor and the end of the
expansion go to the offsets. So the cursor is not in front of the text, and the expansion does not
end behind it; if another text is put in farther on, the line changes in front of the end. -/
theorem ends_astray_beyond_line :
    beyond.cursor = some ⟨"ab\n".toList, 5⟩ ∧ beyond.expansions = [] ∧
    (injectMacro ⟨"m", "x", none⟩ ["m"] "x" 0 20).Returns beyond true astray ∧
    astray.line = "ab\nx".toList ∧ ¬ "x".toList <+: astray.line.drop astray.pos ∧
    (∃ e, astray.expansions = [e] ∧ ¬ e.stop ≤ (astray.line.length : Int)) ∧
    ∃ s s', (seek 6).Returns astray () s ∧ (injectText "y".toList 0).Returns s 7 s' ∧
      ∃ e e', s.expansions = [e] ∧ s'.expansions = [e'] ∧ e.stop ≤ (6 : Int) ∧
        s'.line.take e.stop.toNat ≠ s.line.take e.stop.toNat := by
  refine ⟨rfl, rfl, ⟨[], rfl⟩, rfl, by decide, ⟨_, rfl, by decide⟩, ?_⟩
  exact ⟨_, _, ⟨[], rfl⟩, ⟨[], rfl⟩, _, _, rfl, rfl, by decide, by decide⟩

-- ---------------------------------------------------------------------------
-- Staying in the line
-- ---------------------------------------------------------------------------

/-- A stream whose cursor and whose ends are in the current line, if there is one. -/
structure Fits (s : Stream) : Prop where
  pos_le : ∀ c, s.cursor = some c → c.pos ≤ c.line.length
  stop_le : ∀ c, s.cursor = some c → ∀ e ∈ s.expansions, e.stop ≤ (c.line.length : Int)

/-- Without a line everything fits. -/
theorem fits_of_none (h : s.cursor = none) : s.Fits := by
  constructor <;> intro c hc <;> cases h.symm.trans hc

/-- With a line, what counts is the cursor and the ends. -/
theorem fits_of_cursor (hc : s.cursor = some c) (hpos : c.pos ≤ c.line.length)
    (hstop : ∀ e ∈ s.expansions, e.stop ≤ (c.line.length : Int)) : s.Fits := by
  constructor <;> intro c' hc' <;> obtain rfl := Option.some.inj (hc.symm.trans hc')
  · exact hpos
  · exact hstop

/-- A new line has no expansions, and the cursor is at its start. -/
theorem fits_atNextLine (s : Stream) : s.atNextLine.Fits :=
  fits_of_cursor rfl (Nat.zero_le _) fun _ he => absurd he List.not_mem_nil

/-- Forgetting expansions leaves fewer ends to fit. -/
theorem Fits.cleanup (h : s.Fits) : s.cleanup.Fits :=
  ⟨h.pos_le, fun c hc e he => h.stop_le c hc e ((List.dropWhile_sublist _).mem he)⟩

/-- The cursor may move within the line. -/
theorem Fits.seek (h : s.Fits) (hc : s.cursor = some c) {pos : Nat} (hpos : pos ≤ c.line.length) :
    Fits { s with cursor := some (c.seek pos) } :=
  fits_of_cursor (c := c.seek pos) rfl hpos (h.stop_le c hc)

/-- Reading on makes the line longer, so all fits still. -/
theorem Fits.grown (h : s.Fits) (hc : s.cursor = some c) : (s.grown c).Fits := by
  let longer := c.append (readLine s.unread).1
  have hlonger : c.line.length ≤ longer.line.length := by
    unfold longer Cursor.append
    rw [List.length_append]
    exact Nat.le_add_right ..
  exact fits_of_cursor (c := longer) rfl (Nat.le_trans (h.pos_le c hc) hlonger) fun e he =>
    Int.le_trans (h.stop_le c hc e he) (Int.ofNat_le.mpr hlonger)

/-- An end in the line is in the line that it becomes. -/
theorem shift_stop_le (hpos : c.pos ≤ c.line.length) (he : e.stop ≤ (c.line.length : Int))
    (length : Nat) (text : List Char) : (e.shift (c.pos - length) (text.length - length)).stop ≤
      ((c.splice length text).line.length : Int) := by
  rw [e.shift_stop, c.length_splice]
  split <;> omega

/-- Replacing text makes the line longer or shorter by as much as the ends move. -/
theorem Fits.replaced (h : s.Fits) (hc : s.cursor = some c) (text : List Char) (length : Nat) :
    (s.replaced c text length).Fits := by
  have hpos := h.pos_le c hc
  have hstart : (c.splice length text).pos ≤ (c.splice length text).line.length := by
    rw [c.length_splice]
    show c.pos - length ≤ _
    omega
  refine fits_of_cursor (c := c.splice length text) rfl hstart fun e he => ?_
  obtain ⟨e, hold, rfl⟩ := List.mem_map.mp he
  exact shift_stop_le hpos (h.stop_le c hc e hold) length text

/-- So does opening an expansion, which ends in the line. -/
theorem Fits.opened (h : s.Fits) (hc : s.cursor = some c) (definition : Macro) (args : List String)
    (text : String) (length : Nat) : (s.opened c definition args text length).Fits := by
  have hreplaced := h.replaced hc text.toList length
  refine fits_of_cursor (c := c.splice length text.toList) rfl (hreplaced.pos_le _ rfl) fun e he =>
    ?_
  rcases List.mem_cons.mp he with rfl | hold
  · have hpos := h.pos_le c hc
    rw [c.length_splice]
    dsimp only
    omega
  · exact hreplaced.stop_le _ rfl e hold

/-- Work on a stream that does not move the cursor out of its line. -/
inductive Work (s : Stream) : {α : Type} → Run Stream α → Prop
  | readyNextLine : Work s Stream.readyNextLine
  | appendNextLine : Work s Stream.appendNextLine
  | matchHere (regex : Regex) : Work s (Stream.matchHere regex)
  | seek {pos : Nat} (hpos : ∀ c, s.cursor = some c → pos ≤ c.line.length) :
      Work s (Stream.seek pos)
  | injectText (text : List Char) (length : Nat) : Work s (Stream.injectText text length)
  | injectMacro (definition : Macro) (args : List String) (text : String) (length maxDepth : Nat) :
    Work s (Stream.injectMacro definition args text length maxDepth)
  | cleanup : Work s (Run.modify Stream.cleanup)
  | close : Work s (Run.modify closed)

/-- Work on a line is refused if there is none. -/
theorem Fits.theCursor_bind {α : Type} {f : Cursor → Run Stream α} (h : s.Fits)
    (hf : ∀ c, s.cursor = some c → (f c).Leaves s fun _ s' => s'.Fits) :
    (theCursor >>= f).Leaves s fun _ s' => s'.Fits := by
  cases hc : s.cursor with
  | none =>
    rw [leaves_theCursor_bind_of_none hc]
    exact h
  | some c =>
    rw [Run.leaves_bind, leaves_theCursor hc]
    exact hf c hc

/-- **One piece of work** leaves the cursor and the ends in the line. -/
theorem Work.fits {α : Type} {x : Run Stream α} (hx : s.Work x) (h : s.Fits) :
    x.Leaves s fun _ s' => s'.Fits := by
  cases hx with
  | readyNextLine =>
    cases hclosed : s.isClosed with
    | false =>
      rw [leaves_readyNextLine hclosed]
      split
      · exact h
      · split
        · exact fits_of_none rfl
        · exact fits_atNextLine s
    | true =>
      -- a closed stream refuses to be read, and that changes nothing
      unfold Stream.readyNextLine
      rw [Run.leaves_get_bind]
      split
      · exact h
      · rw [leaves_takeLine_bind_of_closed hclosed]
        exact h
  | appendNextLine =>
    refine h.theCursor_bind fun c hc => ?_
    cases hclosed : s.isClosed with
    | false =>
      rw [Run.leaves_bind, leaves_takeLine hclosed, Run.continues_ok]
      split
      · exact ⟨h.pos_le, h.stop_le⟩
      · exact h.grown hc
    | true =>
      rw [leaves_takeLine_bind_of_closed hclosed]
      exact h
  | matchHere regex =>
    refine h.theCursor_bind fun c hc => ?_
    have hpos := h.pos_le c hc
    unfold Cursor.matchHere
    cases hmatch : regex.matchAt c.line c.pos with
    | none => exact h.seek hc hpos
    | some m => exact h.seek hc (Regex.matchAt_text hmatch hpos).2.2.1
  | seek hpos => exact h.theCursor_bind fun c hc => h.seek hc (hpos c hc)
  | injectText text length =>
    exact h.theCursor_bind fun c hc => Run.leaves_modify_bind.mpr (h.replaced hc text length)
  | injectMacro definition args text length maxDepth =>
    unfold Stream.injectMacro
    rw [Run.leaves_get_bind]
    split
    · exact h
    · unfold Stream.injectText
      rw [bind_assoc]
      exact h.theCursor_bind fun c hc => h.opened hc definition args text length
  | cleanup => exact h.cleanup
  | close => exact fits_of_none rfl

/-- What a row of such work makes of a stream, whether all of it is done or some is refused. -/
inductive Worked (s : Stream) : Stream → Prop
  | start : Worked s s
  | work {α : Type} {s' : Stream} {x : Run Stream α} (h : Worked s s') (hx : s'.Work x) :
      Worked s (x.run s').state

/-- **Staying in the line.** From a stream that has no line yet, no work leads the cursor or an end
out of the line, unless it moves the cursor there. -/
theorem Worked.fits (h : s.Worked s') (hnone : s.cursor = none) : s'.Fits := by
  induction h with
  | start => exact fits_of_none hnone
  | work _ hx ih => exact hx.fits ih

-- ---------------------------------------------------------------------------
-- Work in an expansion
-- ---------------------------------------------------------------------------

/-- An open expansion, by the number of expansions that had been opened before it and
are still open. -/
def expansion? (s : Stream) (k : Nat) : Option Expansion := s.expansions.reverse[k]?

/-- Replacing text moves each expansion in its place of the stack. -/
theorem expansion?_replaced (s : Stream) (c : Cursor) (text : List Char) (length k : Nat) :
    (s.replaced c text length).expansion? k =
      (s.expansion? k).map (Expansion.shift (c.pos - length) (text.length - length)) := by
  unfold expansion? replaced
  rw [← List.map_reverse, List.getElem?_map]

/-- An expansion that is open before another one is opened keeps its place below that. -/
theorem expansion?_opened (he : s.expansion? k = some e) (c : Cursor) (definition : Macro)
    (args : List String) (text : String) (length : Nat) :
    (s.opened c definition args text length).expansion? k =
      some (e.shift (c.pos - length) (text.toList.length - length)) := by
  have hbelow := expansion?_replaced s c text.toList length k
  rw [he] at hbelow
  unfold expansion? at hbelow ⊢
  obtain ⟨hk, -⟩ := List.getElem?_eq_some_iff.mp hbelow
  unfold opened
  rw [List.reverse_cons, List.getElem?_append_left hk]
  exact hbelow

/-- Forgetting finished expansions takes them from the top, so the others keep their places. -/
theorem expansion?_cleanup (hk : k < s.cleanup.expansions.length) :
    s.cleanup.expansion? k = s.expansion? k := by
  obtain ⟨front, hfront⟩ : s.cleanup.expansions <:+ s.expansions := List.dropWhile_suffix _
  unfold expansion?
  rw [← hfront, List.reverse_append, List.getElem?_append_left]
  rw [List.length_reverse]
  exact hk

/-- Work on the current line while an expansion is open, in which the replaced characters end in the
expansion or with it. What has been read on is `more`. -/
inductive InExpansion (k : Nat) (s : Stream) : Stream → List Char → Prop
  | start : InExpansion k s s []
  | moved {s' : Stream} {more : List Char} {c : Cursor}
      (h : InExpansion k s s' more) (hc : s'.cursor = some c)
      (pos : Nat) : InExpansion k s { s' with cursor := some (c.seek pos) } more
  | grown {s' : Stream} {more : List Char} {c : Cursor} (h : InExpansion k s s' more)
      (hc : s'.cursor = some c) : InExpansion k s (s'.grown c) (more ++ (readLine s'.unread).1)
  | cleaned {s' : Stream} {more : List Char} (h : InExpansion k s s' more)
      (hopen : k < s'.cleanup.expansions.length) : InExpansion k s s'.cleanup more
  | replaced {s' : Stream} {more : List Char} {c : Cursor} {e : Expansion} {length : Nat}
      (h : InExpansion k s s' more) (hc : s'.cursor = some c) (hlength : length ≤ c.pos)
      (he : s'.expansion? k = some e) (hstart : ((c.pos - length : Nat) : Int) < e.stop)
      (hend : (c.pos : Int) ≤ e.stop) (text : List Char) :
    InExpansion k s (s'.replaced c text length) more
  | opened {s' : Stream} {more : List Char} {c : Cursor} {e : Expansion} {length : Nat}
      (h : InExpansion k s s' more) (hc : s'.cursor = some c) (hlength : length ≤ c.pos)
      (he : s'.expansion? k = some e) (hstart : ((c.pos - length : Nat) : Int) < e.stop)
      (hend : (c.pos : Int) ≤ e.stop) (definition : Macro) (args : List String) (text : String) :
      InExpansion k s (s'.opened c definition args text length) more

/-- What replacing text in an expansion does to its end. -/
theorem tail_shift {line : List Char} (hlength : length ≤ c.pos) (text : List Char)
    (hstart : ((c.pos - length : Nat) : Int) < e.stop) (hend : (c.pos : Int) ≤ e.stop)
    (hline : e.stop ≤ (c.line.length : Int)) (htail : c.line.drop e.stop.toNat = line) :
    let e' := e.shift (c.pos - length) (text.length - length)
    e'.stop ≤ ((c.splice length text).line.length : Int) ∧
    (c.splice length text).line.drop e'.stop.toNat = line := by
  have hpos : c.pos ≤ c.line.length := Int.ofNat_le.mp (Int.le_trans hend hline)
  exact ⟨shift_stop_le hpos hline length text,
    ((e.tracks_shift c hlength text).behind hstart hend).2.trans htail⟩

/-- **What stands behind an expansion** goes on standing there, as long as all text that is replaced
belongs to the expansion. -/
theorem InExpansion.tail (h : s.InExpansion k s' more) (he : s.expansion? k = some e)
    (hline : e.stop ≤ (s.line.length : Int)) :
    ∃ stop, s'.expansion? k = some { e with stop := stop } ∧ stop ≤ (s'.line.length : Int) ∧
      s'.line.drop stop.toNat = s.line.drop e.stop.toNat ++ more := by
  induction h with
  | start => exact ⟨e.stop, he, hline, (List.append_nil _).symm⟩
  | moved h hc pos ih =>
    rw [line_of_cursor hc] at ih
    exact ih
  | @grown s' more c h hc ih =>
    obtain ⟨stop, hlast, hstop, htail⟩ := ih
    rw [line_of_cursor hc] at hstop htail
    have hgrown : (s'.grown c).line = c.line ++ (readLine s'.unread).1 := rfl
    refine ⟨stop, hlast, ?_, ?_⟩
    · rw [hgrown, List.length_append]
      omega
    · rw [hgrown, List.drop_append_of_le_length (by omega), htail, List.append_assoc]
  | cleaned h hopen ih =>
    rw [expansion?_cleanup hopen]
    exact ih
  | @replaced s' more c e₁ length h hc hlength he₁ hstart hend text ih =>
    obtain ⟨stop, hlast, hstop, htail⟩ := ih
    -- the expansion in which text is replaced is the one that has been followed
    obtain rfl := Option.some.inj (he₁.symm.trans hlast)
    rw [line_of_cursor hc] at hstop htail
    refine ⟨_, ?_, tail_shift hlength text hstart hend hstop htail⟩
    rw [expansion?_replaced, hlast, Option.map_some]
    exact congrArg some (Expansion.tracks_shift c hlength text _).same
  | @opened s' more c e₁ length h hc hlength he₁ hstart hend definition args text ih =>
    obtain ⟨stop, hlast, hstop, htail⟩ := ih
    obtain rfl := Option.some.inj (he₁.symm.trans hlast)
    rw [line_of_cursor hc] at hstop htail
    refine ⟨_, ?_, tail_shift hlength text.toList hstart hend hstop htail⟩
    rw [expansion?_opened hlast]
    exact congrArg some (Expansion.tracks_shift c hlength text.toList _).same

end Stream

end GrammarEngine
