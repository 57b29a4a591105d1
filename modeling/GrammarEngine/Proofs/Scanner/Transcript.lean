import GrammarEngine.Proofs.Scanner.Inputs
import GrammarEngine.Proofs.Scanner.Plan
import GrammarEngine.Proofs.Scanner.Reading

/-!
# What is read of a text

A scanner reads its text line by line, tidies the line, tries the patterns at its cursor, and counts
lines as they come. A reader of the text does none of this (`Lexicon.Reads`), but both read the same
pieces: the scanner stands where the reader does, in the same mode, and has made the same tokens. So
none of the text is lost, also not where a line ends, where the last line has no line feed, or where
a mode changes in the middle of a line.

This holds for texts without macro calls, since a call is replaced before it is read.

Main results:

* `scanRound_in_text` — a round reads at the place where the scanner stands.
* `perform_modal` — a routine leaves the modes that were foretold.
* `Hands.transcript` — the tokens are those of the pieces, and the pieces are the text
  up to the cursor.
-/

namespace GrammarEngine

-- ---------------------------------------------------------------------------
-- Where a stream stands in its text
-- ---------------------------------------------------------------------------

namespace Stream

/-- What is still to come from a stream. -/
def remaining (s : Stream) : List Char := (s.cursor.map Cursor.rest).getD [] ++ s.unread

/-- A stream with its cursor in a line of its text, behind some complete lines. -/
structure InLine (s : Stream) (lines : List Char) (c : Cursor) : Prop where
  isOpen : s.isClosed = false
  expansions : s.expansions = []
  cursor : s.cursor = some c
  whole : WholeLines lines
  lineNo : s.lineNo = lines.count '\n' + 1
  isLine : IsLine c.line s.unread
  pos_le : c.pos ≤ c.line.length

/-- A stream stands between two parts of its text: in a line, or in front of the first one, or
behind the last. -/
inductive At (s : Stream) : List Char → List Char → Prop
  | inLine {lines : List Char} {c : Cursor} (h : s.InLine lines c) :
      s.At (lines ++ c.line.take c.pos) (c.rest ++ s.unread)
  | atStart (hopen : s.isClosed = false) (hcursor : s.cursor = none)
      (hlineNo : s.lineNo = 0) : s.At [] s.unread
  | atEnd {text : List Char} (hopen : s.isClosed = false) (hcursor : s.cursor = none)
      (hunread : s.unread = []) : s.At text []

variable {s : Stream} {c : Cursor} {lines before after : List Char}

/-- A stream that stands in its text is open. -/
theorem At.isOpen (h : s.At before after) : s.isClosed = false := by
  cases h with
  | inLine h => exact h.isOpen
  | atStart hopen => exact hopen
  | atEnd hopen => exact hopen

/-- What is to come from it is what stands behind. -/
theorem At.remaining_eq (h : s.At before after) : s.remaining = after := by
  unfold remaining
  cases h with
  | inLine h => rw [h.cursor, Option.map_some, Option.getD_some]
  | atStart _ hcursor => rw [hcursor, Option.map_none, Option.getD_none, List.nil_append]
  | atEnd _ hcursor hunread =>
    rw [hcursor, hunread, Option.map_none, Option.getD_none, List.nil_append]

/-- The next line of a stream that has read complete lines. -/
theorem inLine_atNextLine (hopen : s.isClosed = false) (hwhole : WholeLines lines)
    (hlineNo : s.lineNo = lines.count '\n') (hmore : s.unread ≠ []) :
    s.atNextLine.InLine lines (.ofLine (readLine s.unread).1) ∧
      0 < (readLine s.unread).1.length ∧
      (readLine s.unread).1 ++ (readLine s.unread).2 = s.unread := by
  refine ⟨⟨hopen, rfl, rfl, hwhole, ?_, isLine_readLine _, Nat.zero_le _⟩, ?_, readLine_append _⟩
  · show s.lineNo + 1 = _
    rw [hlineNo]
  · rw [List.length_pos_iff]
    exact fun hnil => hmore (readLine_isEmpty.mp (List.isEmpty_iff.mpr hnil))

/-- A line with another one behind it is complete, and has been counted. -/
theorem InLine.complete (h : s.InLine lines c) (hmore : s.unread ≠ []) :
    WholeLines (lines ++ c.line) ∧ s.lineNo = (lines ++ c.line).count '\n' := by
  obtain ⟨body, hbody, hline⟩ := h.isLine.whole hmore
  refine ⟨.inr ⟨lines ++ body, by rw [hline, List.append_assoc]⟩, ?_⟩
  rw [h.lineNo, hline, List.count_append, List.count_append, List.count_eq_zero_of_not_mem hbody,
    List.count_singleton_self, Nat.zero_add]

/-- At the end of its text there is nothing to scan. -/
theorem upcoming?_of_end (h : s.At before []) : s.upcoming? = none := by
  have hremaining := h.remaining_eq
  unfold remaining at hremaining
  obtain ⟨hrest, hunread⟩ := List.append_eq_nil_iff.mp hremaining
  have hnone : s.cursor.any (!·.atEnd) = false := by
    cases hcursor : s.cursor with
    | none => rfl
    | some c =>
      rw [hcursor, Option.map_some, Option.getD_some, Cursor.rest, List.drop_eq_nil_iff] at hrest
      simpa [Cursor.atEnd] using hrest
  unfold upcoming?
  rw [hnone, if_neg Bool.false_ne_true, if_pos hunread]

/-- Where there is more text, the next round finds the cursor inside of a line of it. -/
theorem At.upcoming? (h : s.At before after) (hafter : after ≠ []) :
    ∃ s' lines c, s.upcoming? = some s' ∧ s.Steady s' ∧ s'.InLine lines c ∧ c.pos < c.line.length ∧
      before = lines ++ c.line.take c.pos ∧ after = c.rest ++ s'.unread := by
  -- the next line is read
  have hnext : ∀ lines, WholeLines lines → s.isClosed = false → s.lineNo = lines.count '\n' →
      s.cursor.any (!·.atEnd) = false → s.unread ≠ [] → ∃ s' lines' c, s.upcoming? = some s' ∧
      s.Steady s' ∧ s'.InLine lines' c ∧ c.pos < c.line.length ∧
        lines = lines' ++ c.line.take c.pos ∧ s.unread = c.rest ++ s'.unread := by
    intro lines hwhole hopen hlineNo hnone hmore
    obtain ⟨hline, hpos, htext⟩ := inLine_atNextLine hopen hwhole hlineNo hmore
    refine ⟨s.atNextLine, lines, _, ?_, ⟨rfl, rfl⟩, hline, hpos, ?_, htext.symm⟩
    · unfold Stream.upcoming?
      rw [hnone, if_neg Bool.false_ne_true, if_neg hmore]
      rfl
    · exact (List.append_nil _).symm
  cases h with
  | @inLine lines c h =>
    rcases Nat.lt_or_ge c.pos c.line.length with hlt | hge
    · refine ⟨s.cleanup, lines, c, ?_, ⟨rfl, rfl⟩, ?_, hlt, rfl, rfl⟩
      · unfold Stream.upcoming?
        rw [h.cursor, if_pos (by simpa [Cursor.atEnd] using hlt)]
      · refine ⟨h.isOpen, ?_, h.cursor, h.whole, h.lineNo, h.isLine, h.pos_le⟩
        show s.expansions.dropWhile _ = []
        rw [h.expansions]
        rfl
    · have hend := Nat.le_antisymm h.pos_le hge
      have hrest : c.rest = [] := List.drop_eq_nil_of_le hge
      rw [hrest, List.nil_append] at hafter ⊢
      rw [hend, List.take_length]
      obtain ⟨hwhole, hlineNo⟩ := h.complete hafter
      refine hnext _ hwhole h.isOpen hlineNo ?_ hafter
      rw [h.cursor]
      simpa [Cursor.atEnd] using hge
  | atStart hopen hcursor hlineNo =>
    refine hnext [] (.inl rfl) hopen hlineNo ?_ hafter
    rw [hcursor]
    rfl
  | atEnd => exact absurd rfl hafter

/-- In a line the cursor may go further on. -/
theorem InLine.seek (h : s.InLine lines c) {pos : Nat} (hpos : pos ≤ c.line.length) :
    { s with cursor := some (c.seek pos) }.InLine lines (c.seek pos) :=
  ⟨h.isOpen, h.expansions, rfl, h.whole, h.lineNo, h.isLine, hpos⟩

end Stream

/-- Columns count the characters of the line. -/
theorem Cursor.column_eq {c : Cursor} (h : c.pos ≤ c.line.length) :
    c.column = 1 + (lineBefore (c.line.take c.pos)).length := by
  have hlength : (c.line.take c.pos).length = c.pos := by
    rw [List.length_take, Nat.min_eq_left h]
  have hle : (lineBefore (c.line.take c.pos)).length ≤ c.pos := by
    have := (List.takeWhile_prefix (l := (c.line.take c.pos).reverse) (· != '\n')).length_le
    rw [List.length_reverse, hlength] at this
    rw [lineBefore, List.length_reverse]
    exact this
  unfold lineBefore at hle ⊢
  rw [List.length_reverse] at hle ⊢
  unfold Cursor.column
  dsimp only
  rw [hlength]
  omega

namespace Lexicon

/-- The place of a cursor in its text. -/
theorem Place.of_inLine {s : Stream} {lines : List Char} {c : Cursor} (h : s.InLine lines c)
    (hpos : c.pos < c.line.length) (mode : Mode) (kept : List Mode) :
    (⟨lines ++ c.line.take c.pos, c.rest ++ s.unread, mode, kept⟩ : Place).line = c.line ∧
      (⟨lines ++ c.line.take c.pos, c.rest ++ s.unread, mode, kept⟩ : Place).offset = c.pos := by
  obtain ⟨hnone, hline⟩ := h.isLine.inside hpos
  have hbefore : lineBefore (lines ++ c.line.take c.pos) = c.line.take c.pos :=
    (lineBefore_append h.whole _).trans (lineBefore_of_not_mem hnone)
  refine ⟨?_, ?_⟩
  · show lineBefore (lines ++ c.line.take c.pos) ++ (readLine (c.rest ++ s.unread)).1 = _
    rw [hbefore, Cursor.rest, hline, List.take_append_drop]
  · show (lineBefore (lines ++ c.line.take c.pos)).length = _
    rw [hbefore, List.length_take, Nat.min_eq_left h.pos_le]

end Lexicon

namespace Scanner

variable {t t' : Scanner} {s : Stream} {c : Cursor} {lines before after : List Char}

/-- The position of a scanner whose cursor is in a line: the line of the cursor, and one more than
what stands in the same line in front of it. -/
theorem position_inLine (h : t.current? = some s) (hlag : t.lineLag = 0)
    (hline : s.InLine lines c) :
    t.position = ⟨s.name, (1 + lines.count '\n' : Nat),
      (1 + (lineBefore (lines ++ c.line.take c.pos)).length : Nat)⟩ := by
  have hcolumn : s.column = c.column := by
    unfold Stream.column
    rw [hline.cursor]
    rfl
  unfold position
  rw [h]
  dsimp only
  rw [hlag, hline.lineNo, Int.sub_zero, hcolumn, Cursor.column_eq hline.pos_le,
    lineBefore_append hline.whole, Nat.add_comm]

-- ---------------------------------------------------------------------------
-- Texts without calls
-- ---------------------------------------------------------------------------

/-- A text without the two characters that a macro call begins with. -/
def NoCalls (text : List Char) : Prop := ¬ ['$', '\x7b'] <:+: text

instance (text : List Char) : Decidable (NoCalls text) := inferInstanceAs (Decidable (¬ _))

/-- A part of a text without calls has none. -/
theorem NoCalls.of_infix {text part : List Char}
    (h : NoCalls text) (hpart : part <:+: text) : NoCalls part :=
  fun hcall => h (hcall.trans hpart)

/-- In a line without calls none begins. -/
theorem NoCalls.not_callBegins (h : NoCalls c.line) (pos : Nat) :
    callBegins ⟨c.line, pos⟩ = false := by
  rw [Bool.eq_false_iff]
  intro hbegins
  obtain ⟨hfirst, hsecond, -⟩ := callBegins_iff.mp hbegins
  obtain ⟨hlt, hfirst⟩ := List.getElem?_eq_some_iff.mp hfirst
  obtain ⟨hlt', hsecond⟩ := List.getElem?_eq_some_iff.mp hsecond
  refine h ⟨c.line.take pos, c.line.drop (pos + 2), ?_⟩
  rw [List.append_assoc]
  have hcons : c.line.drop pos = ['$', '\x7b'] ++ c.line.drop (pos + 2) := by
    rw [List.drop_eq_getElem_cons hlt, List.drop_eq_getElem_cons hlt', hfirst, hsecond]
    rfl
  rw [← hcons, List.take_append_drop]

/-- A line of a text is a part of it. -/
theorem infix_of_inLine (h : before = lines ++ c.line.take c.pos)
    (h' : after = c.rest ++ s.unread) : c.line <:+: before ++ after := by
  refine ⟨lines, s.unread, ?_⟩
  rw [h, h', Cursor.rest, List.append_assoc lines, List.append_assoc lines,
    ← List.append_assoc (c.line.take c.pos), List.take_append_drop]

/-- **Scanning at the cursor** of a line without calls: the first pattern that matches makes a
token, or the text is refused. -/
theorem scanAtCursor_of_no_calls (h : t.current? = some s) (hc : s.cursor = some c)
    (hcalls : NoCalls c.line) {Q : Except Fault (Option Token) → Scanner → Prop} :
    scanAtCursor.Leaves t Q ↔
      match firstMatch? ((t.lexicon.patterns? t.mode).getD []) c with
      | none =>
        (reportUnmatched >>= fun _ => pure none).Leaves { t with tokenStart := some t.position } Q
      | some (p, m) =>
        (produce p m t.position).Leaves
          ({ t with tokenStart := some t.position }.onto { s with cursor := some (c.seek m.stop) })
            Q := by
  have h₀ : { t with tokenStart := some t.position }.current? = some s := h
  have hnone : ({ t with tokenStart := some t.position }.callsMacros && callBegins c) = false := by
    rw [Bool.and_eq_false_iff]
    exact .inr (hcalls.not_callBegins c.pos)
  unfold scanAtCursor
  rw [Run.leaves_modify_bind, Run.leaves_get_bind, Run.leaves_bind,
    expandAtCursor_of_no_call h₀ hc hnone, Run.continues_ok, if_neg Bool.false_ne_true,
    Run.leaves_get_bind, Run.leaves_bind, leaves_onStream h₀, Stream.leaves_theCursor hc,
    Run.continues_ok, onto_current h₀]
  dsimp only
  cases hmatch : firstMatch? ((t.lexicon.patterns? t.mode).getD []) c with
  | none => exact Iff.rfl
  | some found =>
    obtain ⟨p, m⟩ := found
    dsimp only
    rw [Run.leaves_bind, leaves_onStream h₀, Stream.leaves_seek hc, Run.continues_ok]
    have h₁ := current?_onto h₀ { s with cursor := some (c.seek m.stop) }
    cases p.isSkipped with
    | true => exact Iff.rfl
    | false =>
      -- no call is found in the match, either
      have hfind : Call.findStart? (Cursor.previous? ((c.seek m.stop).seek c.pos))
          ((c.seek m.stop).seek c.pos).rest (m.stop - c.pos) = none := by
        rw [Option.eq_none_iff_forall_not_mem]
        intro offset hoffset
        obtain ⟨-, hbegins, -⟩ := findStart?_eq_some_iff.mp hoffset
        exact absurd (hcalls.not_callBegins _) (by rw [Bool.not_eq_false]; exact hbegins)
      rw [if_neg Bool.false_ne_true, Run.leaves_bind, leaves_expandInMatch h₁ rfl, hfind, ite_self]
      exact Iff.rfl

-- ---------------------------------------------------------------------------
-- A round in a text
-- ---------------------------------------------------------------------------

open Lexicon (IsFirst Place)

/-- The pattern found is the first one that matches. -/
theorem isFirst_of_firstMatch? {patterns : List TokenPattern} {p : TokenPattern} {m : Match}
    (h : firstMatch? patterns c = some (p, m)) : IsFirst patterns c.line c.pos p m := by
  unfold firstMatch? at h
  obtain ⟨earlier, q, later, hpatterns, hmatch, hnone⟩ := List.findSome?_eq_some_iff.mp h
  obtain ⟨m', hm', heq⟩ := Option.map_eq_some_iff.mp hmatch
  obtain ⟨rfl, rfl⟩ := Prod.mk.inj heq
  exact ⟨earlier, later, hpatterns, fun q hq => Option.map_eq_none_iff.mp (hnone q hq), hm'⟩

/-- Where no pattern is found none matches. -/
theorem not_isFirst_of_firstMatch? {patterns : List TokenPattern}
    (h : firstMatch? patterns c = none)
    (p : TokenPattern) (m : Match) : ¬ IsFirst patterns c.line c.pos p m := by
  rintro ⟨earlier, later, rfl, -, hmatch⟩
  unfold firstMatch? at h
  have hnone := List.findSome?_eq_none_iff.mp h p (List.mem_append_right _ (List.mem_cons_self ..))
  have hmatch' : p.regex.matchFrom (Regex.Focus.ofLine c.line c.pos) = some m := hmatch
  rw [hmatch'] at hnone
  cases hnone

/-- The place of a scanner whose stream stands somewhere in its text. -/
def place (t : Scanner) (before after : List Char) : Place := ⟨before, after, t.mode, t.modeStack⟩

/-- **A round in a text** reads at the place where the scanner stands: the first pattern that
matches there makes a token of its match, or none, and without such a pattern the round fails. -/
theorem scanRound_in_text (h : t.current? = some s) (hat : s.At before after) (hafter : after ≠ [])
    (hcalls : NoCalls (before ++ after)) (hlag : t.lineLag = 0)
    {Q : Except Fault (Option Token) → Scanner → Prop}
    (hmatched : ∀ p m s' after', IsFirst ((t.lexicon.patterns? t.mode).getD [])
      (t.place before after).line (t.place before after).offset p m →
          after = m.text.toList ++ after' → s'.At (before ++ m.text.toList) after' → s.Steady s' →
        ∀ t', t' = { t with tokenStart := some ((t.place before after).position s.name) }.onto s' →
      t'.position = (t.place before after).behind s.name m.text.toList →
        (produce p m ((t.place before after).position s.name)).Leaves t' Q)
    (hunmatched : (∀ p m, ¬ IsFirst ((t.lexicon.patterns? t.mode).getD [])
      (t.place before after).line (t.place before after).offset p m) →
        ∀ fault t', Q (.error fault) t') : scanRound.Leaves t Q := by
  obtain ⟨s₁, lines, c, hup, hsteady, hline, hlt, rfl, rfl⟩ := hat.upcoming? hafter
  obtain ⟨hplaceLine, hplaceOffset⟩ := Place.of_inLine hline hlt t.mode t.modeStack
  have hnone := (hline.isLine.inside hlt).1
  have hcount : (lines ++ c.line.take c.pos).count '\n' = lines.count '\n' := by
    rw [List.count_append, List.count_eq_zero_of_not_mem hnone, Nat.add_zero]
  have h₁ := current?_onto h s₁
  have hposition : (t.onto s₁).position =
      (t.place (lines ++ c.line.take c.pos) (c.rest ++ s₁.unread)).position s.name := by
    rw [position_inLine h₁ hlag hline, hsteady.name]
    unfold Place.position Place.offset place
    rw [hcount]
  have hpatterns : ((t.onto s₁).lexicon.patterns? (t.onto s₁).mode).getD [] =
      (t.lexicon.patterns? t.mode).getD [] := rfl
  rw [scanRound_leaves h hat.isOpen, hup]
  dsimp only
  rw [scanAtCursor_of_no_calls h₁ hline.cursor (hcalls.of_infix (infix_of_inLine rfl rfl)),
    hpatterns, hposition]
  unfold place at hmatched hunmatched
  rw [hplaceLine, hplaceOffset] at hmatched hunmatched
  cases hmatch : firstMatch? ((t.lexicon.patterns? t.mode).getD []) c with
  | none =>
    let t₁ := { t.onto s₁ with
      tokenStart :=
        some ((t.place (lines ++ c.line.take c.pos) (c.rest ++ s₁.unread)).position s.name) }
    have ht₁ : t₁.current? = some s₁ := h₁
    refine Run.leaves_bind.mpr
      ((leaves_reportUnmatched ht₁ hline.isOpen hline.cursor).mono fun r t' hr => ?_)
    obtain ⟨m, -, rfl, -⟩ := hr
    exact hunmatched (not_isFirst_of_firstMatch? hmatch) _ _
  | some found =>
    obtain ⟨p, m⟩ := found
    dsimp only
    have hfirst := isFirst_of_firstMatch? hmatch
    obtain ⟨-, -, -, -, hat'⟩ := id hfirst
    obtain ⟨-, -, hstop, -⟩ := Regex.matchAt_text hat' hline.pos_le
    obtain ⟨hpassed, hrest⟩ := Regex.matchAt_split hat' hline.pos_le
    have hseek := hline.seek hstop
    have hbefore : lines ++ (c.seek m.stop).line.take (c.seek m.stop).pos =
        (lines ++ c.line.take c.pos) ++ m.text.toList := by
      show lines ++ c.line.take m.stop = _
      rw [hpassed, List.append_assoc]
    have hstands := Stream.At.inLine hseek
    rw [hbefore] at hstands
    have hafter' : c.rest ++ s₁.unread = m.text.toList ++ ((c.seek m.stop).rest ++ s₁.unread) := by
      show c.line.drop c.pos ++ _ = _ ++ (c.line.drop m.stop ++ _)
      rw [hrest, List.append_assoc]
    refine hmatched p m _ _ hfirst hafter' hstands ⟨hsteady.name, hsteady.origin⟩ _ ?_ ?_
    · unfold onto
      cases t.inputs <;> rfl
    · have h₂ : ({ t.onto s₁ with
          tokenStart := some ((t.place (lines ++ c.line.take c.pos) (c.rest ++ s₁.unread)).position
            s.name) }.onto { s₁ with cursor := some (c.seek m.stop) }).current? =
              some { s₁ with cursor := some (c.seek m.stop) } :=
        current?_onto h₁ _
      rw [position_inLine h₂ hlag hseek]
      unfold Place.behind
      dsimp only
      rw [hcount, hbefore, hsteady.name]

-- ---------------------------------------------------------------------------
-- Routines that switch modes
-- ---------------------------------------------------------------------------

/-- A scanner that has only switched modes, and left notes. -/
structure Turned (t t' : Scanner) : Prop where
  lexicon : t'.lexicon = t.lexicon
  defaultMode : t'.defaultMode = t.defaultMode
  lineLag : t'.lineLag = t.lineLag
  inputs : t'.inputs = t.inputs
  pending : t'.pending = t.pending
  ended : t'.ended = t.ended
  position : t'.position = t.position

theorem Turned.refl (t : Scanner) : Turned t t := ⟨rfl, rfl, rfl, rfl, rfl, rfl, rfl⟩

theorem Turned.trans {t'' : Scanner} (h : Turned t t') (h' : Turned t' t'') : Turned t t'' :=
  ⟨h'.lexicon.trans h.lexicon, h'.defaultMode.trans h.defaultMode, h'.lineLag.trans h.lineLag,
    h'.inputs.trans h.inputs, h'.pending.trans h.pending, h'.ended.trans h.ended,
    h'.position.trans h.position⟩

/-- What a scanner becomes when it is made to switch to a mode. -/
def switchedTo (mode : Mode) (t : Scanner) : Scanner :=
  { t with
    mode := mode
    modeStart := if t.mode == t.defaultMode && mode != t.defaultMode then t.tokenStart else
      t.modeStart }

/-- **Setting a mode** switches to it, if there are patterns for it. -/
theorem leaves_setMode {mode : Mode} {Q : Except Fault Unit → Scanner → Prop} :
    (setMode mode).Leaves t Q ↔
    if (t.lexicon.patterns? mode).isSome then Q (.ok ()) (t.switchedTo mode)
    else Q (.error (.grammar (.undefinedMode mode))) t := by
  unfold setMode
  rw [Run.leaves_get_bind]
  cases t.lexicon.patterns? mode <;> exact Iff.rfl

/-- Pushing a mode switches to it, and keeps the mode that was left. -/
theorem leaves_pushMode {mode : Mode} {Q : Except Fault Unit → Scanner → Prop} :
    (pushMode mode).Leaves t Q ↔ if (t.lexicon.patterns? mode).isSome then
      Q (.ok ()) { t.switchedTo mode with modeStack := t.mode :: t.modeStack }
    else Q (.error (.grammar (.undefinedMode mode))) t := by
  unfold pushMode
  rw [Run.leaves_get_bind, Run.leaves_bind, leaves_setMode]
  split <;> exact Iff.rfl

/-- Popping a mode switches to the one kept last, if there is one. -/
theorem leaves_popMode {Q : Except Fault Unit → Scanner → Prop} : popMode.Leaves t Q ↔
    match t.modeStack with
    | [] => Q (.error (.grammar .emptyModeStack)) t
    | mode :: below =>
      if (t.lexicon.patterns? mode).isSome then
        Q (.ok ()) ({ t with modeStack := below }.switchedTo mode)
      else Q (.error (.grammar (.undefinedMode mode))) { t with modeStack := below } := by
  unfold popMode
  rw [Run.leaves_get_bind]
  cases t.modeStack with
  | nil => exact Iff.rfl
  | cons mode below =>
    dsimp only
    rw [Run.leaves_modify_bind, leaves_setMode]

/-- What a modal routine leaves: it makes what was foretold, in the modes that were foretold, or
fails where nothing was. -/
def Foretold (routine : Routine) (t : Scanner) (r : Except Fault (Option String × Value))
    (t' : Scanner) : Prop :=
  Turned t t' ∧ routine.switched t.lexicon t.position t.mode t.modeStack =
    match r with
    | .ok made => some (made, t'.mode, t'.modeStack)
    | .error _ => none

/-- **A modal routine** leaves what was foretold. -/
theorem perform_modal {routine : Routine} (h : routine.Modal) (t : Scanner) :
    (perform routine).Leaves t (Foretold routine t) := by
  induction routine generalizing t with
  | setMode mode rest ih =>
    unfold perform Foretold
    rw [Run.leaves_bind, leaves_setMode, Routine.switched_setMode]
    split
    · refine Run.continues_ok.mpr ((ih h _).mono fun r t' hr => ⟨.trans ?_ hr.1, hr.2⟩)
      exact ⟨rfl, rfl, rfl, rfl, rfl, rfl, rfl⟩
    · exact ⟨.refl t, rfl⟩
  | pushMode mode rest ih =>
    unfold perform Foretold
    rw [Run.leaves_bind, leaves_pushMode, Routine.switched_pushMode]
    split
    · refine Run.continues_ok.mpr ((ih h _).mono fun r t' hr => ⟨.trans ?_ hr.1, hr.2⟩)
      exact ⟨rfl, rfl, rfl, rfl, rfl, rfl, rfl⟩
    · exact ⟨.refl t, rfl⟩
  | popMode rest ih =>
    unfold perform Foretold
    rw [Run.leaves_bind, leaves_popMode]
    split
    · next hempty =>
      rw [hempty]
      exact ⟨.refl t, Routine.switched_popMode_nil rest⟩
    · next mode below hkept =>
      rw [hkept, Routine.switched_popMode_cons]
      split
      · refine Run.continues_ok.mpr ((ih h _).mono fun r t' hr => ⟨.trans ?_ hr.1, hr.2⟩)
        exact ⟨rfl, rfl, rfl, rfl, rfl, rfl, rfl⟩
      · exact ⟨⟨rfl, rfl, rfl, rfl, rfl, rfl, rfl⟩, rfl⟩
  | note label rest ih =>
    unfold perform
    rw [Run.leaves_modify_bind]
    have hnoted : Turned t (noted label t) := ⟨rfl, rfl, rfl, rfl, rfl, rfl, rfl⟩
    exact (ih h _).mono fun r t' hr => ⟨hnoted.trans hr.1, hr.2⟩
  | look rest ih =>
    unfold perform
    rw [Run.leaves_get_bind]
    exact ih _ _ (h t.position t.mode) t
  | fail fault => exact ⟨.refl t, rfl⟩
  | done kind value => exact ⟨.refl t, rfl⟩
  | inject | includeFile | addMacro | report | pushBack => exact h.elim

-- ---------------------------------------------------------------------------
-- A piece of the text
-- ---------------------------------------------------------------------------

open Lexicon (Piece Step Reads)

/-- The kind and the value that are made of a match. -/
def makes (p : TokenPattern) (m : Match) : Run Scanner (Option String × Value) :=
  match p.routine with
  | some routine => perform (routine m)
  | none => pure (p.kind, .text m.text)

/-- A token is what is made of its match, at the start of that. -/
theorem produce_eq (p : TokenPattern) (m : Match) (start : Position) :
    produce p m start = makes p m >>= fun made => pure (made.1.map (⟨·, made.2, some start⟩)) := by
  unfold produce makes
  cases p.routine <;> rfl

/-- **A round reads a piece** of the text, where the routines of the mode are modal. -/
theorem scanRound_reads (h : t.current? = some s) (hat : s.At before after) (hafter : after ≠ [])
    (hcalls : NoCalls (before ++ after)) (hlag : t.lineLag = 0) (hmodal : t.lexicon.Modal) :
    scanRound.Leaves t fun r t' => ∀ found, r = .ok found →
      ∃ piece c' s', Step t.lexicon s.name (t.place before after) piece c' ∧ found = piece.token ∧
        s.Steady s' ∧ s'.At c'.before c'.after ∧ Turned (t.onto s') t' ∧
        t'.place c'.before c'.after = c' := by
  refine scanRound_in_text h hat hafter hcalls hlag
    (fun p m s' after' hfirst htext hat' hsteady t₁ ht₁ hbehind => ?_)
    fun _ fault t' found hfound => nomatch hfound
  -- it remains to make the token
  have hlexicon : t₁.lexicon = t.lexicon := by rw [ht₁]; rfl
  have hmodes : t₁.mode = t.mode ∧ t₁.modeStack = t.modeStack := by rw [ht₁]; exact ⟨rfl, rfl⟩
  have hthere : Turned (t.onto s') t₁ := by
    rw [ht₁]
    exact ⟨rfl, rfl, rfl, rfl, rfl, rfl, rfl⟩
  have hmakes : (makes p m).Leaves t₁ fun r t' => Turned t₁ t' ∧
      t.lexicon.made ((t.place before after).behind s.name m.text.toList) p m t.mode t.modeStack =
        match r with
        | .ok made => some (made, t'.mode, t'.modeStack)
        | .error _ => none := by
    unfold Lexicon.made makes
    cases hroutine : p.routine with
    | none =>
      refine ⟨.refl t₁, ?_⟩
      show some (_, t.mode, t.modeStack) = some (_, t₁.mode, t₁.modeStack)
      rw [hmodes.1, hmodes.2]
    | some routine =>
      obtain ⟨earlier, later, hpatterns, -⟩ := id hfirst
      have hmem : p ∈ (t.lexicon.patterns? t.mode).getD [] := by
        rw [hpatterns]
        exact List.mem_append_right _ (List.mem_cons_self ..)
      refine (perform_modal (hmodal _ p hmem routine hroutine m) t₁).mono fun r t' hr => ⟨hr.1, ?_⟩
      rw [← hr.2, hlexicon, hbehind, hmodes.1, hmodes.2]
  rw [produce_eq]
  refine hmakes.bind (fun made t' hr => ?_) fun fault t' _ found hfound => nomatch hfound
  obtain ⟨kind, value⟩ := made
  obtain ⟨hturned, hmade⟩ := hr
  intro found hfound
  obtain rfl := Except.ok.inj hfound
  let piece : Piece :=
    ⟨t.mode, p, m, kind.map (⟨·, value, some ((t.place before after).position s.name)⟩)⟩
  exact ⟨piece, ⟨before ++ m.text.toList, after', t'.mode, t'.modeStack⟩, s',
    ⟨hafter, rfl, hfirst, rfl, htext, kind, value, hmade, rfl⟩, rfl, hsteady, hat',
    hthere.trans hturned, rfl⟩

/-- At the end of the only input the end token is made. -/
theorem endOfInput_of_last {input : Input} (hmode : t.mode = t.defaultMode)
    (hinputs : t.inputs = [input]) {Q : Except Fault (Option Token) → Scanner → Prop} :
    endOfInput.Leaves t Q ↔
      Q (.ok (some (.endOfInput t.position)))
        { t with ended := some (.endOfInput t.position) } := by
  unfold endOfInput
  rw [Run.leaves_get_bind, if_neg (by simp [hmode])]
  split
  · next heq =>
    rw [hinputs] at heq
    cases heq
  · exact Iff.rfl

/-- In another mode than the default one an input must not end. -/
theorem endOfInput_of_runaway (hmode : t.mode ≠ t.defaultMode) (h : t.current? = some s) :
    endOfInput.Leaves t fun r _ => ∃ fault, r = .error fault := by
  unfold endOfInput
  rw [Run.leaves_get_bind, if_pos (bne_iff_ne.mpr hmode)]
  dsimp only
  rw [Run.leaves_bind, Run.leaves_set, Run.continues_ok]
  refine (leaves_error (s := s) ?_).mono fun r t' hr => ?_
  · exact h
  · obtain ⟨⟨m, -, rfl⟩, -⟩ := hr
    exact ⟨_, rfl⟩

-- ---------------------------------------------------------------------------
-- Calls for tokens
-- ---------------------------------------------------------------------------

/-- A scanner is opened to read its text, and is called for tokens. Each call hands one on. -/
inductive Hands (t₀ : Scanner) : List Token → Scanner → Prop
  | opened {t : Scanner} (hstart : (start true).Returns t₀ () t) : Hands t₀ [] t
  | next {tokens : List Token} {t t' : Scanner} {rounds : Nat} {token : Token}
      (h : Hands t₀ tokens t)
      (hnext : (next rounds).Returns t token t') : Hands t₀ (tokens ++ [token]) t'

/-- A scanner that has read some pieces of its text, and stands where the reader does. -/
structure HasRead (t₀ t : Scanner) (pieces : List Piece) (c : Place) : Prop where
  lexicon : t.lexicon = t₀.lexicon
  lineLag : t.lineLag = 0
  pending : t.pending = none
  input : ∃ input, t.inputs = [input] ∧ input.stream.name = t₀.label ∧
    input.stream.At c.before c.after
  reads : Reads t₀.lexicon t₀.label (.beginning t₀.master.toList t₀.defaultMode) pieces c
  place : t.place c.before c.after = c

variable {t₀ : Scanner} {pieces : List Piece} {place : Place}

/-- A scanner that is started on a text is opened with it. -/
theorem start_label_returns {u : Unit} (h : (start true).Returns t₀ u t) :
    t = { t₀.opened (.ofText t₀.master t₀.label) with readsLabel := true } := by
  obtain ⟨_, t₁, hmodify, h⟩ := Run.returns_bind.mp h
  obtain rfl := Run.returns_modify.mp hmodify
  obtain ⟨t₂, t₃, hget, h⟩ := Run.returns_bind.mp h
  obtain ⟨rfl, rfl⟩ := Run.returns_get.mp hget
  obtain ⟨stream, t₄, hstream, h⟩ := Run.returns_bind.mp h
  obtain ⟨rfl, rfl⟩ := Run.returns_pure.mp hstream
  exact (Run.returns_modify.mp h).symm

/-- A scanner that was opened stands at the beginning of its text. -/
theorem hasRead_opened (h : (start true).Returns t₀ () t) :
    HasRead t₀ t [] (.beginning t₀.master.toList t₀.defaultMode) ∧ t.ended = none := by
  obtain rfl := start_label_returns h
  exact ⟨⟨rfl, rfl, rfl, ⟨_, rfl, rfl, .atStart rfl rfl rfl⟩, .nil _, rfl⟩, rfl⟩

/-- What was read and what is to come are parts of the text, so there is no call there. -/
theorem HasRead.noCalls (h : HasRead t₀ t pieces place) (hcalls : NoCalls t₀.master.toList) :
    NoCalls (place.before ++ place.after) := by
  rw [h.reads.text_eq]
  exact hcalls

/-- What a round makes of a scanner that has read some pieces: one more piece, or the
end of the text. -/
theorem HasRead.round (hmodal : t₀.lexicon.Modal) (hcalls : NoCalls t₀.master.toList)
    (h : HasRead t₀ t pieces place) (hended : t.ended = none) :
    scanRound.Leaves t fun r t' => ∀ found, r = .ok found →
      (∃ piece place', HasRead t₀ t' (pieces ++ [piece]) place' ∧ found = piece.token ∧
        t'.ended = none) ∨ (∃ position, HasRead t₀ t' pieces place ∧ place.after = [] ∧
        found = some (.endOfInput position) ∧ t'.ended = some (.endOfInput position)) := by
  obtain ⟨input, hinputs, hname, hat⟩ := h.input
  have hcurrent := current?_of_inputs hinputs
  by_cases hafter : place.after = []
  · -- nothing is left to read
    rw [hafter] at hat
    rw [scanRound_leaves hcurrent hat.isOpen, Stream.upcoming?_of_end hat]
    have hunread : input.stream.unread = [] := (List.append_eq_nil_iff.mp hat.remaining_eq).2
    have hinputs' := onto_inputs hinputs { input.stream with cursor := none }
    by_cases hmode : t.mode = t.defaultMode
    · refine (endOfInput_of_last (t := t.onto _) hmode hinputs').mpr fun found hfound => ?_
      obtain rfl := Except.ok.inj hfound
      refine .inr ⟨_, ⟨h.lexicon, h.lineLag, h.pending, ⟨_, hinputs', hname, ?_⟩, h.reads, h.place⟩,
        hafter, rfl, rfl⟩
      rw [hafter]
      exact .atEnd hat.isOpen rfl hunread
    · refine (endOfInput_of_runaway (t := t.onto _) hmode (current?_onto hcurrent _)).mono
        fun r t' hr found hfound => ?_
      obtain ⟨fault, rfl⟩ := hr
      cases hfound
  · have hmodal' : t.lexicon.Modal := by
      rw [h.lexicon]
      exact hmodal
    refine (scanRound_reads hcurrent hat hafter (h.noCalls hcalls) h.lineLag hmodal').mono
      fun r t' hr found hfound => ?_
    obtain ⟨piece, place', s', hstep, rfl, hsteady, hat', hturned, hplace'⟩ := hr found hfound
    rw [h.place, h.lexicon, hname] at hstep
    refine .inl ⟨piece, place', ⟨hturned.lexicon.trans h.lexicon, hturned.lineLag.trans h.lineLag,
      hturned.pending.trans h.pending, ⟨{ input with stream := s' }, ?_, hsteady.name.trans hname,
        hat'⟩, h.reads.snoc hstep, hplace'⟩, rfl, hturned.ended.trans hended⟩
    rw [hturned.inputs, onto_inputs hinputs]

/-- A call for a token reads some pieces that make none, and then one that does, or
comes to the end. -/
theorem HasRead.next (hmodal : t₀.lexicon.Modal) (hcalls : NoCalls t₀.master.toList)
    (h : HasRead t₀ t pieces place) (hended : t.ended = none) {rounds : Nat} {token : Token}
    (hnext : (Scanner.next rounds).Returns t token t') :
    ∃ pieces' place', HasRead t₀ t' pieces' place' ∧
      ((pieces'.filterMap Piece.token = pieces.filterMap Piece.token ++ [token] ∧ t'.ended = none) ∨
      (pieces'.filterMap Piece.token = pieces.filterMap Piece.token ∧ place'.after = [] ∧
        ∃ position, token = .endOfInput position ∧ t'.ended = some token)) := by
  obtain ⟨input, hinputs, -⟩ := h.input
  have hopen : t.inputs ≠ [] := by
    rw [hinputs]
    exact List.cons_ne_nil _ _
  obtain ⟨trace, hnext⟩ := hnext
  rw [next_run h.pending hended hopen] at hnext
  -- what the rounds keep: they have read pieces that made no token
  let inv (t' : Scanner) : Prop := ∃ pieces' place', HasRead t₀ t' pieces' place' ∧
    pieces'.filterMap Piece.token = pieces.filterMap Piece.token ∧ t'.ended = none
  have hleaves : (Run.repeated scanRound rounds).Leaves t fun r t' => ∀ token, r = .ok token →
      ∃ pieces' place', HasRead t₀ t' pieces' place' ∧
        ((pieces'.filterMap Piece.token = pieces.filterMap Piece.token ++ [token] ∧
          t'.ended = none) ∨
        (pieces'.filterMap Piece.token = pieces.filterMap Piece.token ∧ place'.after = [] ∧
          ∃ position, token = .endOfInput position ∧ t'.ended = some token)) := by
    refine Run.repeated_keeps inv (fun t₁ hinv => ?_) (fun _ _ _ hnone => nomatch hnone)
      ⟨pieces, place, h, rfl, hended⟩ _
    obtain ⟨pieces₁, place₁, h₁, htokens, hended₁⟩ := hinv
    refine (h₁.round hmodal hcalls hended₁).mono fun r t₂ hr => ?_
    match r, hr with
    | .error fault, _ => exact fun _ hnone => nomatch hnone
    | .ok none, hr =>
      rcases hr none rfl with ⟨piece, place₂, h₂, hnone, hended₂⟩ | ⟨_, _, _, hnone, _⟩
      · refine ⟨_, place₂, h₂, ?_, hended₂⟩
        rw [List.filterMap_append, htokens, List.filterMap_cons_none hnone.symm, List.filterMap_nil,
          List.append_nil]
      · cases hnone
    | .ok (some found), hr =>
      intro token htoken
      obtain rfl := Except.ok.inj htoken
      rcases hr (some found) rfl
        with ⟨piece, place₂, h₂, hsome, hended₂⟩ | ⟨position, h₂, hafter, hsome, hended₂⟩
      · refine ⟨_, place₂, h₂, .inl ⟨?_, hended₂⟩⟩
        rw [List.filterMap_append, htokens, List.filterMap_cons_some hsome.symm, List.filterMap_nil]
      · obtain rfl := Option.some.inj hsome
        exact ⟨_, place₁, h₂, .inr ⟨htokens, hafter, position, rfl, hended₂⟩⟩
  exact hleaves.of_returns ⟨trace, hnext⟩ token rfl

/-- What a scanner has read when it was called for tokens. The end token is there once it
was delivered. -/
theorem Hands.hasRead {tokens : List Token}
    (hmodal : t₀.lexicon.Modal) (hcalls : NoCalls t₀.master.toList) (h : Hands t₀ tokens t) :
    ∃ pieces place ends, HasRead t₀ t pieces place ∧
      tokens = pieces.filterMap Piece.token ++ ends ∧
      ((ends = [] ∧ t.ended = none) ∨
        (place.after = [] ∧ (∀ e ∈ ends, ∃ position, e = .endOfInput position) ∧
        ∃ position, t.ended = some (.endOfInput position))) := by
  induction h with
  | opened hstart =>
    obtain ⟨hread, hended⟩ := hasRead_opened hstart
    exact ⟨[], _, [], hread, rfl, .inl ⟨rfl, hended⟩⟩
  | @next tokens t t' rounds token _ hnext ih =>
    obtain ⟨pieces, place, ends, hread, rfl, ⟨rfl, hended⟩ | ⟨hafter, hends, position, hended⟩⟩ :=
      ih
    · rw [List.append_nil]
      obtain ⟨pieces', place', hread', ⟨htokens, hended'⟩ |
          ⟨htokens, hafter, position, rfl, hended'⟩⟩ :=
        hread.next hmodal hcalls hended hnext
      · exact ⟨pieces', place', [], hread', by rw [htokens, List.append_nil], .inl ⟨rfl, hended'⟩⟩
      · refine ⟨pieces', place', _, hread',
          by rw [htokens], .inr ⟨hafter, fun e he => ?_, position, hended'⟩⟩
        exact ⟨position, List.mem_singleton.mp he⟩
    · obtain ⟨trace, hnext⟩ := hnext
      rw [next_of_ended rounds hread.pending hended, Outcome.mk.injEq, Except.ok.injEq] at hnext
      obtain ⟨rfl, rfl, -⟩ := hnext
      refine ⟨pieces, place, ends ++ [.endOfInput position], hread, by rw [List.append_assoc],
        .inr ⟨hafter, fun e he => ?_, position, hended⟩⟩
      rcases List.mem_append.mp he with he | he
      · exact hends e he
      · exact ⟨position, List.mem_singleton.mp he⟩

/-- **No text is lost.** However often a scanner that reads a text was called for tokens, the pieces
that it has read are those of the reader, and together they are the text up to the cursor. The
tokens are those that the pieces made, with the positions of the pieces; behind them come end tokens
only, and only once the whole text has been read. -/
theorem Hands.transcript {tokens : List Token}
    (hmodal : t₀.lexicon.Modal) (hcalls : NoCalls t₀.master.toList) (h : Hands t₀ tokens t) :
    ∃ pieces place s ends,
      Reads t₀.lexicon t₀.label (.beginning t₀.master.toList t₀.defaultMode) pieces place ∧
      t.current? = some s ∧ (pieces.map Piece.text).flatten ++ s.remaining = t₀.master.toList ∧
      t.mode = place.mode ∧ t.modeStack = place.kept ∧
      tokens = pieces.filterMap Piece.token ++ ends ∧
      (∀ e ∈ ends, ∃ position, e = .endOfInput position) ∧
      (ends ≠ [] → (pieces.map Piece.text).flatten = t₀.master.toList) := by
  obtain ⟨pieces, place, ends, hread, htokens, hends⟩ := h.hasRead hmodal hcalls
  obtain ⟨input, hinputs, -, hat⟩ := hread.input
  have htext := hread.reads.text_eq
  rw [hread.reads.before_eq] at htext
  refine ⟨pieces, place, input.stream, ends, hread.reads, ?_, ?_, congrArg Place.mode hread.place,
    congrArg Place.kept hread.place, htokens, ?_, ?_⟩
  · unfold current?
    rw [hinputs]
    rfl
  · rw [hat.remaining_eq]
    exact htext
  · rcases hends with ⟨rfl, -⟩ | ⟨-, hends, -⟩
    · exact fun e he => absurd he List.not_mem_nil
    · exact hends
  · intro hne
    rcases hends with ⟨rfl, -⟩ | ⟨hafter, -⟩
    · exact absurd rfl hne
    · rw [hafter, List.append_nil] at htext
      exact htext

/-- Words, and strings between double quotes that have a mode of their own. A string may go on in
the next line. -/
private def quoted : Lexicon :=
  [ (none,
      [ ⟨none, ⟨.repeated 1 none false (.oneOf false [.char ' ', .char '\n']), 0, {}⟩, none⟩,
        ⟨some "ID", ⟨.repeated 1 none false (.oneOf false [.range 'a' 'z']), 0, {}⟩, none⟩,
        ⟨none, ⟨.char '"', 0, {}⟩, some (Post.routine none [.pushMode (some "string")])⟩ ]),
    (some "string",
      [ ⟨some "STRING", ⟨.repeated 1 none false (.oneOf true [.char '"']), 0, {}⟩, none⟩,
        ⟨none, ⟨.char '"', 0, {}⟩, some (Post.routine none [.popMode])⟩ ]) ]

/-- The routines of strings only switch modes. -/
private theorem modal_quoted : quoted.Modal := by
  refine Lexicon.modal_of_posts fun entry hentry p hp => ?_
  simp only [quoted, List.mem_cons, List.not_mem_nil, or_false] at hentry
  rcases hentry with rfl | rfl
  all_goals
    simp only [List.mem_cons, List.not_mem_nil, or_false] at hp
    rcases hp with rfl | rfl | rfl
    all_goals first
      | exact .inl rfl
      | exact .inr ⟨_, by decide, rfl⟩

/-- A scanner of words and of strings. -/
private def quoting : Scanner :=
  { master := "a \"b\n c\" d"
    lexicon := quoted
    defaultMode := none
    mode := none }

/-- The scanner after some calls for tokens. -/
private def quotingAfter : Nat → Scanner
  | 0 => ((start true).run quoting).state
  | n + 1 => ((next 9).run (quotingAfter n)).state

/-- The tokens that it makes. -/
private def quotingTokens : List Token :=
  [ ⟨"ID", .text "a", some ⟨"<buffer>", 1, 1⟩⟩, ⟨"STRING", .text "b\n", some ⟨"<buffer>", 1, 4⟩⟩,
    ⟨"STRING", .text " c", some ⟨"<buffer>", 2, 1⟩⟩, ⟨"ID", .text "d", some ⟨"<buffer>", 2, 5⟩⟩,
    .endOfInput (some ⟨"<buffer>", 2, 0⟩) ]

/-- A string goes on in the last line, which has no line feed. -/
theorem transcript_quoting : quoting.lexicon.Modal ∧ NoCalls quoting.master.toList ∧
    Hands quoting quotingTokens (quotingAfter 5) ∧
    ∃ pieces place s ends,
      Reads quoting.lexicon quoting.label (.beginning quoting.master.toList quoting.defaultMode)
        pieces place ∧ (quotingAfter 5).current? = some s ∧
      (pieces.map Piece.text).flatten ++ s.remaining = quoting.master.toList ∧
      (quotingAfter 5).mode = place.mode ∧ (quotingAfter 5).modeStack = place.kept ∧
      quotingTokens = pieces.filterMap Piece.token ++ ends ∧
      (∀ e ∈ ends, ∃ position, e = Token.endOfInput position) ∧
      (ends ≠ [] → (pieces.map Piece.text).flatten = quoting.master.toList) := by
  have hcalls : NoCalls quoting.master.toList := by decide +kernel
  have hstart : Hands quoting [] (quotingAfter 0) :=
    .opened (Run.returns_of_result (by decide +kernel))
  have ha : (next 9).Returns (quotingAfter 0) ⟨"ID", .text "a", some ⟨"<buffer>", 1, 1⟩⟩
      (quotingAfter 1) :=
    Run.returns_of_result (by decide +kernel)
  have hb : (next 9).Returns (quotingAfter 1) ⟨"STRING", .text "b\n", some ⟨"<buffer>", 1, 4⟩⟩
      (quotingAfter 2) :=
    Run.returns_of_result (by decide +kernel)
  have hc : (next 9).Returns (quotingAfter 2) ⟨"STRING", .text " c", some ⟨"<buffer>", 2, 1⟩⟩
      (quotingAfter 3) :=
    Run.returns_of_result (by decide +kernel)
  have hd : (next 9).Returns (quotingAfter 3) ⟨"ID", .text "d", some ⟨"<buffer>", 2, 5⟩⟩
      (quotingAfter 4) :=
    Run.returns_of_result (by decide +kernel)
  have hend : (next 9).Returns (quotingAfter 4) (.endOfInput (some ⟨"<buffer>", 2, 0⟩))
      (quotingAfter 5) :=
    Run.returns_of_result (by decide +kernel)
  have hall := ((((hstart.next ha).next hb).next hc).next hd).next hend
  exact ⟨modal_quoted, hcalls, hall, Hands.transcript modal_quoted hcalls hall⟩

end Scanner

end GrammarEngine
