import GrammarEngine.Proofs.Outcomes
import GrammarEngine.Proofs.Scanner.Calls
import GrammarEngine.Proofs.Scanner.Local

/-!
# Reading and expanding a call

A scanner works on the stream of its current input. What each step makes of that stream is told by
the stream that it leaves: `replaced`, `opened`, `grown`, `atNextLine`. What it makes of the scanner
is little besides; messages may have been reported (`Moves`).

The text of a call may go on in lines that are not yet read, and they are read on the way
(`Longer`). Then the call is expanded: a macro text stands in its place, or it is refused.

Main results:

* `leaves_onStream` — what work on the current input leaves.
* `readCall_does` — what holds of the lines that a call is read with.
* `readCall_reads`, `readCall_leaves` — a call is read, with the lines that it goes on in.
* `expandCall_leaves` — a call that was read is replaced by a text, or refused.
-/

namespace GrammarEngine

-- ---------------------------------------------------------------------------
-- Streams
-- ---------------------------------------------------------------------------

namespace Stream

variable {s : Stream} {c : Cursor}

/-- The line is that of the cursor. -/
theorem line_of_cursor (hc : s.cursor = some c) : s.line = c.line := by
  unfold line
  rw [hc]
  rfl

/-- So is the place in it. -/
theorem pos_of_cursor (hc : s.cursor = some c) : s.pos = c.pos := by
  unfold pos
  rw [hc]
  rfl

/-- A stream in which the `length` characters in front of the cursor have been replaced. -/
def replaced (s : Stream) (c : Cursor) (text : List Char) (length : Nat) : Stream :=
  { s with
    cursor := some (c.splice length text)
    expansions := s.expansions.map (Expansion.shift (c.pos - length) (text.length - length)) }

/-- A stream in which the text of a macro was put in the place of a call, and is being scanned. -/
def opened (s : Stream) (c : Cursor) (definition : Macro) (args : List String) (text : String)
    (length : Nat) : Stream :=
  { s.replaced c text.toList length with
    expansions := ⟨definition, args, text, ↑(c.pos - length + text.toList.length)⟩ ::
      (s.replaced c text.toList length).expansions }

/-- A stream whose current line goes on with the next one. -/
def grown (s : Stream) (c : Cursor) : Stream :=
  { s with
    unread := (readLine s.unread).2
    lineNo := s.lineNo + 1
    cursor := some (c.append (readLine s.unread).1) }

/-- A stream at the start of its next line. -/
def atNextLine (s : Stream) : Stream :=
  { s with
    unread := (readLine s.unread).2
    lineNo := s.lineNo + 1
    cursor := some (.ofLine (readLine s.unread).1)
    expansions := [] }

/-- Only at the end of a text there is no line. -/
theorem readLine_isEmpty {text : List Char} : (readLine text).1.isEmpty = true ↔ text = [] := by
  cases text with
  | nil => exact iff_of_true rfl rfl
  | cons d rest =>
    unfold readLine
    by_cases hd : d = '\n' <;> simp [hd]

/-- Reading a line leaves less of the text. -/
theorem length_readLine_lt {text : List Char} (h : text ≠ []) :
    (readLine text).2.length < text.length := by
  have hline : (readLine text).1 ≠ [] :=
    fun hline => h (readLine_isEmpty.mp (List.isEmpty_iff.mpr hline))
  have hlength := congrArg List.length (readLine_append text)
  rw [List.length_append] at hlength
  have := List.length_pos_iff.mpr hline
  omega

/-- Taking a line splits the text that is not yet read. -/
theorem leaves_takeLine {Q : Except Fault (List Char) → Stream → Prop}
    (hopen : s.isClosed = false) :
    takeLine.Leaves s Q ↔
      Q (.ok (readLine s.unread).1) { s with unread := (readLine s.unread).2 } := by
  unfold takeLine
  rw [Run.leaves_get_bind, hopen, if_neg Bool.false_ne_true]
  exact Run.leaves_bind

/-- From a stream that is closed no line is taken. -/
theorem leaves_takeLine_bind_of_closed {α : Type} {f : List Char → Run Stream α}
    {Q : Except Fault α → Stream → Prop}
    (hclosed : s.isClosed = true) : (takeLine >>= f).Leaves s Q ↔ Q (.error .closedStream) s := by
  unfold takeLine
  rw [bind_assoc, Run.leaves_get_bind, hclosed]
  rfl

/-- The cursor is the one there is. -/
theorem leaves_theCursor {Q : Except Fault Cursor → Stream → Prop} (hc : s.cursor = some c) :
    theCursor.Leaves s Q ↔ Q (.ok c) s := by
  unfold theCursor
  rw [Run.leaves_get_bind, hc]
  exact Run.leaves_orFail

/-- Without a line there is no work on it. -/
theorem leaves_theCursor_bind_of_none {α : Type} {f : Cursor → Run Stream α}
    {Q : Except Fault α → Stream → Prop}
    (hc : s.cursor = none) : (theCursor >>= f).Leaves s Q ↔ Q (.error .precondition) s := by
  unfold theCursor
  rw [bind_assoc, Run.leaves_get_bind, hc]
  rfl

/-- Moving the cursor leaves the line. -/
theorem leaves_seek {Q : Except Fault Unit → Stream → Prop} {pos : Nat} (hc : s.cursor = some c) :
    (seek pos).Leaves s Q ↔ Q (.ok ()) { s with cursor := some (c.seek pos) } := by
  unfold seek
  rw [Run.leaves_bind, leaves_theCursor hc]
  exact Run.leaves_modify

/-- Injecting text replaces as many characters in front of the cursor. -/
theorem leaves_injectText {Q : Except Fault Nat → Stream → Prop} {text : List Char} {length : Nat}
    (hc : s.cursor = some c) : (injectText text length).Leaves s Q ↔
      Q (.ok (c.pos - length + text.length)) (s.replaced c text length) := by
  unfold injectText
  rw [Run.leaves_bind, leaves_theCursor hc]
  exact Run.leaves_modify_bind

/-- The text of a macro is put in, unless too many expansions are open. -/
theorem leaves_injectMacro {Q : Except Fault Bool → Stream → Prop} {definition : Macro}
    {args : List String} {text : String} {length maxDepth : Nat} (hc : s.cursor = some c) :
    (injectMacro definition args text length maxDepth).Leaves s Q ↔
      if maxDepth ≤ s.expansions.length then Q (.ok false) s
      else Q (.ok true) (s.opened c definition args text length) := by
  unfold injectMacro
  rw [Run.leaves_get_bind]
  split
  · exact Run.leaves_pure
  · rw [Run.leaves_bind, leaves_injectText hc]
    exact Run.leaves_modify_bind

/-- A line is appended, unless all is read. -/
theorem leaves_appendNextLine {Q : Except Fault Bool → Stream → Prop} (hopen : s.isClosed = false)
    (hc : s.cursor = some c) : appendNextLine.Leaves s Q ↔
      if s.unread = [] then Q (.ok false) s else Q (.ok true) (s.grown c) := by
  unfold appendNextLine
  rw [Run.leaves_bind, leaves_theCursor hc]
  show (takeLine >>= _).Leaves s Q ↔ _
  rw [Run.leaves_bind, leaves_takeLine hopen]
  show Run.Leaves (if (readLine s.unread).1.isEmpty then _ else _) _ Q ↔ _
  by_cases hempty : s.unread = []
  · have hstays : { s with unread := (readLine s.unread).2 } = s := by
      cases s
      cases hempty
      rfl
    rw [if_pos (readLine_isEmpty.mpr hempty), if_pos hempty, hstays]
    exact Run.leaves_pure
  · rw [if_neg (readLine_isEmpty.not.mpr hempty), if_neg hempty]
    exact Run.leaves_modify_bind

/-- The next line is taken when the current one is used up. -/
theorem leaves_readyNextLine {Q : Except Fault Bool → Stream → Prop} (hopen : s.isClosed = false) :
    readyNextLine.Leaves s Q ↔
      if s.cursor.any (!·.atEnd) then Q (.ok true) s
      else if s.unread = [] then Q (.ok false) { s with cursor := none } else
          Q (.ok true) s.atNextLine := by
  unfold readyNextLine
  rw [Run.leaves_get_bind]
  split
  · exact Run.leaves_pure
  · rw [Run.leaves_bind, leaves_takeLine hopen]
    show Run.Leaves (if (readLine s.unread).1.isEmpty then _ else _) _ Q ↔ _
    by_cases hempty : s.unread = []
    · have hstays : { s with unread := (readLine s.unread).2, cursor := none } =
          { s with cursor := none } := by
        cases s
        cases hempty
        rfl
      rw [if_pos (readLine_isEmpty.mpr hempty), if_pos hempty, ← hstays]
      exact Run.leaves_modify_bind
    · rw [if_neg (readLine_isEmpty.not.mpr hempty), if_neg hempty]
      exact Run.leaves_modify_bind

/-- A stream whose current line goes on with some of the text that was not yet read. -/
structure Longer (s s' : Stream) (c : Cursor) (more : List Char) : Prop where
  unread : s.unread = more ++ s'.unread
  expansions : s'.expansions = s.expansions
  isClosed : s'.isClosed = s.isClosed
  cursor : s'.cursor = some (c.append more)

/-- Wherever the cursor stands, its line may go on with nothing. -/
theorem longer_seek (s : Stream) (c : Cursor) (pos : Nat) :
    s.Longer { s with cursor := some (c.seek pos) } (c.seek pos) [] := by
  refine ⟨rfl, rfl, rfl, ?_⟩
  rw [Cursor.append, List.append_nil]

/-- The current line goes on, one line after the other, for a call at the cursor that
cannot be read yet. -/
inductive ReadsOn (s : Stream) (c : Cursor) : List Char → Stream → Prop
  | stays (hc : s.cursor = some c) : ReadsOn s c [] s
  | further {more : List Char} {s' : Stream} (h : ReadsOn s c more s') (hmore : s'.unread ≠ [])
      (hnone : Call.read? (c.append more).rest = none) :
      ReadsOn s c (more ++ (readLine s'.unread).1) (s'.grown (c.append more))

/-- A line that was read on is longer. -/
theorem ReadsOn.longer {s' : Stream} {more : List Char} (h : s.ReadsOn c more s') :
    s.Longer s' c more := by
  induction h with
  | stays hc =>
    refine ⟨rfl, rfl, rfl, ?_⟩
    rw [hc, Cursor.append, List.append_nil]
  | @further more s' _ hmore hnone ih =>
    refine ⟨?_, ih.expansions, ih.isClosed, ?_⟩
    · rw [ih.unread, List.append_assoc]
      exact congrArg _ (readLine_append s'.unread).symm
    · show some ((c.append more).append _) = _
      unfold Cursor.append
      rw [List.append_assoc]

end Stream

namespace Scanner

variable {α : Type} {t t' t'' : Scanner} {s s' : Stream} {c : Cursor}

-- ---------------------------------------------------------------------------
-- Work on the current input
-- ---------------------------------------------------------------------------

/-- A scanner whose current input stands elsewhere. -/
def onto (t : Scanner) (s : Stream) : Scanner :=
  { t with inputs := t.inputs.modifyHead ({ · with stream := s }) }

/-- Work on the current input replaces the topmost one. -/
theorem onto_inputs {input : Input} {below : List Input} (hinputs : t.inputs = input :: below)
    (s : Stream) : (t.onto s).inputs = { input with stream := s } :: below := by
  unfold onto
  rw [hinputs]
  rfl

/-- The current input is the one that was put there. -/
theorem current?_onto (h : t.current? = some s) (s' : Stream) : (t.onto s').current? = some s' := by
  obtain ⟨input, hinput, -⟩ := Option.map_eq_some_iff.mp h
  obtain ⟨below, hinputs⟩ := List.head?_eq_some_iff.mp hinput
  unfold onto current?
  rw [hinputs]
  rfl

/-- Only the last stream put there counts. -/
theorem onto_onto (t : Scanner) (s s' : Stream) : (t.onto s).onto s' = t.onto s' := by
  unfold onto
  cases t.inputs <;> rfl

/-- **Work on the current input** leaves what it leaves of the stream. -/
theorem leaves_onStream {work : Run Stream α} {Q : Except Fault α → Scanner → Prop}
    (h : t.current? = some s) :
    (onStream work).Leaves t Q ↔ work.Leaves s fun r s' => Q r (t.onto s') := by
  obtain ⟨input, hinput, rfl⟩ := Option.map_eq_some_iff.mp h
  obtain ⟨below, hinputs⟩ := List.head?_eq_some_iff.mp hinput
  unfold Run.Leaves onto
  rw [onStream_run hinputs, hinputs]
  rfl

/-- Without a current input there is no such work. -/
theorem leaves_onStream_of_none {work : Run Stream α} {Q : Except Fault α → Scanner → Prop}
    (h : t.current? = none) : (onStream work).Leaves t Q ↔ Q (.error .precondition) t := by
  unfold Run.Leaves
  rw [onStream_run_nil (inputs_eq_nil h)]

/-- A scanner after some work on its current input, which now stands at `s`. Messages may have
been reported. -/
structure Moves (t t' : Scanner) (s : Stream) : Prop where
  setting : SameSetting t t'
  pending : t'.pending = t.pending
  ended : t'.ended = t.ended
  inputs : t'.inputs = (t.onto s).inputs

/-- Putting a stream in place is a move to it. -/
theorem moves_onto (t : Scanner) (s : Stream) : Moves t (t.onto s) s :=
  ⟨⟨rfl, rfl, rfl, rfl, rfl, rfl, rfl⟩, rfl, rfl, rfl⟩

/-- The current input is in its place already. -/
theorem onto_current (h : t.current? = some s) : t.onto s = t := by
  obtain ⟨input, hinput, rfl⟩ := Option.map_eq_some_iff.mp h
  obtain ⟨below, hinputs⟩ := List.head?_eq_some_iff.mp hinput
  unfold onto
  rw [hinputs, List.modifyHead_cons, ← hinputs]

/-- Doing nothing is a move to where the current input stands. -/
theorem Moves.refl (h : t.current? = some s) : Moves t t s := by
  have hmoves := moves_onto t s
  rw [onto_current h] at hmoves
  exact hmoves

/-- One move may follow another. -/
theorem Moves.trans (h : Moves t t' s) (h' : Moves t' t'' s') : Moves t t'' s' := by
  refine ⟨h.setting.trans h'.setting, h'.pending.trans h.pending, h'.ended.trans h.ended,
    h'.inputs.trans ?_⟩
  unfold onto
  dsimp only
  rw [h.inputs]
  unfold onto
  cases t.inputs <;> rfl

/-- After a move the current input is the one moved to. -/
theorem Moves.current (h : Moves t t' s) (hcurrent : t.current? = some s') :
    t'.current? = some s := by
  unfold current?
  rw [h.inputs]
  exact current?_onto hcurrent s

/-- An error is reported, and nothing else happens. -/
theorem leaves_errorAt {id text : String} {position : Option Position} {data : Payload}
    (h : t.current? = some s) : (errorAt id text position data : Run Scanner α).Leaves t fun r t' =>
      (∃ m : Message, m.id = id ∧ r = .error (.parse m)) ∧ Moves t t' s := by
  have hmoves := Moves.refl h
  obtain ⟨fault, ⟨m, rfl, hid, -⟩, hfails⟩ := errorAt_fails id text position data t
  exact ⟨⟨m, hid, hfails⟩, ⟨rfl, rfl, rfl, rfl, rfl, rfl, rfl⟩, rfl, rfl, hmoves.inputs⟩

-- ---------------------------------------------------------------------------
-- Reading a call
-- ---------------------------------------------------------------------------

/-- The identifier of the error that too many expansions are open. -/
def overflowId : String := "macro_stack_overflow"

/-- What reading the call at a cursor leaves. The lines that the call goes on in have been read; the
cursor is behind the call, or still in front of it. -/
inductive ReadsCall (t : Scanner) (s : Stream) (c : Cursor) : Except Fault Call → Scanner → Prop
  | read {t' : Scanner} {s' : Stream} {more : List Char} {call : Call}
      (hlonger : s.Longer s' c more) (hread : Call.read? (c.append more).rest = some call)
      (hmoves : Moves t t'
        { s' with cursor := some ((c.append more).seek (c.pos + call.length)) }) :
      ReadsCall t s c (.ok call) t'
  | refused {t' : Scanner} {s' : Stream} {more : List Char} {m : Message}
      (hlonger : s.Longer s' c more)
      (hid : m.id ≠ overflowId) (hmoves : Moves t t' s') : ReadsCall t s c (.error (.parse m)) t'

/-- An error at the cursor is one that reports and moves nowhere. -/
theorem leaves_error {id text : String} (h : t.current? = some s) :
    (error id text : Run Scanner α).Leaves t fun r t' =>
    (∃ m : Message, m.id = id ∧ r = .error (.parse m)) ∧ Moves t t' s := leaves_errorAt h

/-- An error of another kind than that too many expansions are open. -/
theorem leaves_refusal {id text : String} (hid : id ≠ overflowId) (h : t.current? = some s) :
    (error id text : Run Scanner α).Leaves t fun r t' =>
      ∃ m : Message, m.id ≠ overflowId ∧ r = .error (.parse m) ∧ Moves t t' s := by
  refine (leaves_error h).mono fun r t' hr => ?_
  obtain ⟨⟨m, rfl, rfl⟩, hmoves⟩ := hr
  exact ⟨m, hid, rfl, hmoves⟩

/-- A round of reading a call, by what is at hand of it. -/
theorem readCallRound_does (h : t.current? = some s) (hopen : s.isClosed = false)
    (hc : s.cursor = some c) : readCallRound.Leaves t fun r t' =>
      match Call.read? c.rest with
      | some call =>
        r = .ok (some call) ∧ t' = t.onto { s with cursor := some (c.seek (c.pos + call.length)) }
      | none =>
        if '}' ∈ c.rest then (∃ m : Message, m.id = "junk_in_macro_call" ∧ r = .error (.parse m)) ∧
          Moves t t' s
        else if s.unread = [] then
          (∃ m : Message, m.id = "runaway_macro_call" ∧ r = .error (.parse m)) ∧ Moves t t' s
        else r = .ok none ∧ t' = t.onto (s.grown c) := by
  unfold readCallRound
  rw [Run.leaves_bind, leaves_onStream h, Stream.leaves_theCursor hc]
  have hstays : t.onto s = t := onto_current h
  rw [Run.continues_ok, hstays]
  cases hread : Call.read? c.rest with
  | some call =>
    dsimp only
    rw [Run.leaves_bind, leaves_onStream h, Stream.leaves_seek hc]
    exact ⟨rfl, rfl⟩
  | none =>
    dsimp only
    by_cases hbrace : '}' ∈ c.rest
    · rw [if_pos (List.contains_iff_mem.mpr hbrace)]
      simp only [if_pos hbrace]
      exact leaves_error h
    · rw [if_neg (mt List.contains_iff_mem.mp hbrace), Run.leaves_bind, leaves_onStream h,
        Stream.leaves_appendNextLine hopen hc]
      simp only [if_neg hbrace]
      split
      · rw [hstays, Run.continues_ok, if_neg Bool.false_ne_true]
        exact leaves_error h
      · exact ⟨rfl, rfl⟩

/-- Reading a call takes as many lines as it needs. What holds of the first line, and goes on to
hold with each line that is read, holds of all that was read. -/
theorem readCall_does (h : t.current? = some s) (hopen : s.isClosed = false)
    (hc : s.cursor = some c) (holds : List Char → Stream → Prop) (hfirst : holds [] s)
    (hnext : ∀ more s', s.ReadsOn c more s' → holds more s' →
      Call.read? (c.append more).rest = none → '}' ∉ (c.append more).rest → s'.unread ≠ [] →
        holds (more ++ (readLine s'.unread).1) (s'.grown (c.append more))) :
    readCall.Leaves t fun r t' => ∃ more s', s.ReadsOn c more s' ∧ holds more s' ∧
      match Call.read? (c.append more).rest with
      | some call => r = .ok call ∧
          t' = t.onto { s' with cursor := some ((c.append more).seek (c.pos + call.length)) }
      | none =>
        Moves t t' s' ∧
          if '}' ∈ (c.append more).rest then
            ∃ m : Message, m.id = "junk_in_macro_call" ∧ r = .error (.parse m)
          else
            s'.unread = [] ∧
              ∃ m : Message, m.id = "runaway_macro_call" ∧ r = .error (.parse m) := by
  unfold readCall
  rw [Run.leaves_get_bind, h]
  -- every round but the last one reads a line
  let size (t' : Scanner) : Nat := ((t'.current?).map (·.unread.length)).getD 0
  let inv (t' : Scanner) : Prop := ∃ more s', s.ReadsOn c more s' ∧ holds more s' ∧ t' = t.onto s'
  refine Run.repeated_leaves size inv (s := t) ?_ ⟨[], s, .stays hc, hfirst, (onto_current h).symm⟩
    fun t₁ hinv => ?_
  · show ((t.current?).map (·.unread.length)).getD 0 < s.unread.length + 1
    rw [h]
    exact Nat.lt_succ_self _
  · obtain ⟨more, s', hreads, hholds, rfl⟩ := hinv
    have hcurrent := current?_onto h s'
    have hlonger := hreads.longer
    refine (readCallRound_does hcurrent (hlonger.isClosed.trans hopen) hlonger.cursor).mono
      fun r t₂ hr => ?_
    cases hread : Call.read? (c.append more).rest with
    | some call =>
      rw [hread] at hr
      obtain ⟨rfl, rfl⟩ := hr
      refine ⟨more, s', hreads, hholds, ?_⟩
      rw [hread, onto_onto]
      exact ⟨rfl, rfl⟩
    | none =>
      rw [hread] at hr
      dsimp only at hr
      split at hr
      · next hbrace =>
        obtain ⟨⟨m, hid, rfl⟩, hmoves⟩ := hr
        refine ⟨more, s', hreads, hholds, ?_⟩
        rw [hread, if_pos hbrace]
        exact ⟨(moves_onto t s').trans hmoves, m, hid, rfl⟩
      · next hbrace =>
        split at hr
        · next hend =>
          obtain ⟨⟨m, hid, rfl⟩, hmoves⟩ := hr
          refine ⟨more, s', hreads, hholds, ?_⟩
          rw [hread, if_neg hbrace]
          exact ⟨(moves_onto t s').trans hmoves, hend, m, hid, rfl⟩
        · next hmore =>
          obtain ⟨rfl, rfl⟩ := hr
          refine ⟨⟨_, _, .further hreads hmore hread,
            hnext more s' hreads hholds hread hbrace hmore, onto_onto ..⟩, ?_⟩
          show (((t.onto s').onto (s'.grown (c.append more))).current?.map (·.unread.length)).getD
            0 < (((t.onto s').current?).map (·.unread.length)).getD 0
          rw [current?_onto hcurrent, hcurrent]
          exact Stream.length_readLine_lt hmore

/-- **Reading a call** takes the lines that it goes on in, and moves behind it. -/
theorem readCall_reads (h : t.current? = some s) (hopen : s.isClosed = false)
    (hc : s.cursor = some c) :
    readCall.Leaves t fun r t' => ∃ more s', s.ReadsOn c more s' ∧
      match r with
      | .ok call => Call.read? (c.append more).rest = some call ∧
          Moves t t' { s' with cursor := some ((c.append more).seek (c.pos + call.length)) }
      | .error fault => (∃ m : Message, m.id ≠ overflowId ∧ fault = .parse m) ∧ Moves t t' s' := by
  have hdoes := readCall_does h hopen hc (fun _ _ => True) trivial fun _ _ _ _ _ _ _ => trivial
  refine hdoes.mono fun r t' hr => ?_
  obtain ⟨more, s', hreads, -, hr⟩ := hr
  refine ⟨more, s', hreads, ?_⟩
  cases hread : Call.read? (c.append more).rest with
  | some call =>
    rw [hread] at hr
    obtain ⟨rfl, rfl⟩ := hr
    exact ⟨rfl, moves_onto ..⟩
  | none =>
    rw [hread] at hr
    obtain ⟨hmoves, hrefused⟩ := hr
    split at hrefused
    · obtain ⟨m, hid, rfl⟩ := hrefused
      exact ⟨⟨m, hid ▸ by decide, rfl⟩, hmoves⟩
    · obtain ⟨-, m, hid, rfl⟩ := hrefused
      exact ⟨⟨m, hid ▸ by decide, rfl⟩, hmoves⟩

/-- Where it leads is one of the ways to read a call. -/
theorem readCall_leaves (h : t.current? = some s) (hopen : s.isClosed = false)
    (hc : s.cursor = some c) : readCall.Leaves t (ReadsCall t s c) := by
  refine (readCall_reads h hopen hc).mono fun r t' hr => ?_
  obtain ⟨more, s', hreads, hr⟩ := hr
  cases r with
  | ok call => exact .read hreads.longer hr.1 hr.2
  | error fault =>
    obtain ⟨⟨m, hid, rfl⟩, hmoves⟩ := hr
    exact .refused hreads.longer hid hmoves

-- ---------------------------------------------------------------------------
-- Expanding a call
-- ---------------------------------------------------------------------------

/-- Resolving a call changes nothing, and fails only for a numeral that is too long to be read. -/
theorem resolve_leaves (table : MacroTable) (call : Call) (position : Option Position) :
    (table.resolve (call.name :: call.args) position).Leaves t fun r t' =>
      t' = t ∧ match r with | .ok _ => True | .error fault => fault = .badNumeral := by
  have hexpand : ∀ (definition : Macro) (name : String) (value : Option (List Char)),
      (do
        let text ← Run.orFail value .badNumeral
        Run.emit (.macroExpanded position name (String.ofList text))
        pure (Resolution.expanded definition (String.ofList text)) : Run Scanner Resolution).Leaves
            t fun r t' =>
          t' = t ∧ match r with | .ok _ => True | .error fault => fault = .badNumeral := by
    intro definition name value
    cases value with
    | none => exact ⟨rfl, rfl⟩
    | some text => exact ⟨rfl, trivial⟩
  unfold MacroTable.resolve
  rw [Run.leaves_bind, Run.leaves_orFail, List.head?_cons, Run.continues_ok]
  dsimp only
  split
  · exact Run.leaves_pure.mpr ⟨rfl, trivial⟩
  · exact hexpand ..

/-- What expanding a call leaves. The cursor is in front of the text that was put in the place of
the call, or behind the call. -/
inductive Expands (t : Scanner) (s : Stream) (c : Cursor) (call : Call) :
    Except Fault Unit → Scanner → Prop
  | dropped {t' : Scanner} (hmoves : Moves t t' (s.replaced c [] call.length)) :
      Expands t s c call (.ok ()) t'
  | opened {t' : Scanner} {definition : Macro} {text : String} (htext : text ≠ "")
      (hdepth : s.expansions.length < t.maxDepth)
      (hmoves : Moves t t' (s.opened c definition (call.name :: call.args) text call.length)) :
      Expands t s c call (.ok ()) t'
  | overflow {t' : Scanner} {m : Message} (hdepth : t.maxDepth ≤ s.expansions.length)
      (hmoves : Moves t t' s) : Expands t s c call (.error (.parse m)) t'
  | undefined {t' : Scanner} {m : Message} (hid : m.id ≠ overflowId) (hmoves : Moves t t' s) :
      Expands t s c call (.error (.parse m)) t'
  | numeral (hmoves : Moves t t s) : Expands t s c call (.error .badNumeral) t

/-- **Expanding a call** puts a text in its place, or is refused. -/
theorem expandCall_leaves (h : t.current? = some s) (hc : s.cursor = some c) (call : Call) :
    (expandCall call).Leaves t (Expands t s c call) := by
  have hdrop : (discard (onStream (Stream.injectText [] call.length))).Leaves t
      (Expands t s c call) := by
    rw [Run.leaves_discard, leaves_onStream h, Stream.leaves_injectText hc]
    exact .dropped (moves_onto ..)
  unfold expandCall
  rw [Run.leaves_get_bind]
  refine (resolve_leaves ..).bind (fun resolution t' hr => ?_) fun fault t' hr => ?_
  · obtain rfl := hr.1
    cases resolution with
    | undefined =>
      refine (leaves_refusal (by decide) h).mono fun r t'' hr => ?_
      obtain ⟨m, hid, rfl, hmoves⟩ := hr
      exact .undefined hid hmoves
    | missing => exact hdrop
    | expanded definition text =>
      dsimp only
      split
      · exact hdrop
      · next hne =>
        rw [String.isEmpty_iff] at hne
        rw [Run.leaves_bind, leaves_onStream h, Stream.leaves_injectMacro hc]
        split
        · next hdepth =>
          rw [onto_current h, Run.continues_ok]
          refine (leaves_error h).mono fun r t'' hr => ?_
          obtain ⟨⟨m, -, rfl⟩, hmoves⟩ := hr
          exact .overflow hdepth hmoves
        · next hdepth => exact .opened hne (Nat.lt_of_not_le hdepth) (moves_onto ..)
  · obtain ⟨rfl, rfl⟩ := hr
    exact .numeral (.refl h)

end Scanner

end GrammarEngine
