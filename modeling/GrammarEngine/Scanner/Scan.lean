import GrammarEngine.Macro.Call
import GrammarEngine.Scanner.Basic

/-!
# Scanning

A token is scanned where the cursor stands: the patterns of the current mode are tried in order,
and the first one that matches makes the token, or passes text over. A macro call that a token
touches (at its start, inside it, or right behind it) is replaced by its expansion, and the token
is scanned again.

When an input is done, the scanner goes back to the one that included it; a token that had been
pushed back there is delivered next. At the end of the last input the end token is delivered, and it
stays the answer from then on.

Scanning is a repetition of rounds. A round makes a token, or passes something over, or replaces a
call. Since routines may put in text for ever, the number of rounds is bounded by an argument.

Main results:

* `next_of_pending`, `next_of_ended`, `next_of_closed` — where a token comes from that
  is not scanned.
-/

namespace GrammarEngine

namespace Scanner

/-! ## Macro calls -/

/-- Whether a macro call begins at a cursor. -/
def callBegins (c : Cursor) : Bool := Call.startsWith c.previous? c.rest

/-- Resolves a call, and puts the text of the macro in its place. -/
def expandCall (call : Call) : Run Scanner Unit := do
  let s ← Run.get
  match ← s.macros.resolve (call.name :: call.args) s.position with
  -- The position of this error is the one behind the call.
  | .undefined => error "undefined_macro" ("Undefined macro '" ++ call.name ++ "' called")
  | .missing => discard (onStream (Stream.injectText [] call.length))
  | .expanded definition text =>
    -- An empty expansion is over at once, so it is not opened.
    if text.isEmpty then discard (onStream (Stream.injectText [] call.length))
    else
      let args := call.name :: call.args
      let done ← onStream (Stream.injectMacro definition args text call.length s.maxDepth)
      if !done then error "macro_stack_overflow" "Too many nested macro calls."

/-- Reads the call at the cursor, and moves the cursor behind it. If the line ends inside the
call, the next line is read onto its end first; the call must not be malformed before its
closing brace. -/
def readCallRound : Run Scanner (Option Call) := do
  let c ← onStream Stream.theCursor
  match Call.read? c.rest with
  | some call =>
    onStream (Stream.seek (c.pos + call.length))
    pure (some call)
  | none =>
    -- The arguments may go on in the next line, but not past a closing brace.
    if c.rest.contains '}' then
      error "junk_in_macro_call" ("Malformed macro call: " ++ String.ofList (c.peek 20) ++ "...")
    else if ← onStream Stream.appendNextLine then pure none
    else error "runaway_macro_call" "Unterminated macro call"

/-- Reads the call at the cursor. Every round but the last reads a line, so the text that is left
bounds their number. -/
def readCall : Run Scanner Call := do
  let left := ((← Run.get).current?.map (·.unread.length)).getD 0
  Run.repeated readCallRound (left + 1)

/-- Replaces the macro call at the cursor, if there is one. Says whether there was. -/
def expandAtCursor : Run Scanner Bool := do
  let s ← Run.get
  match s.current?.bind Stream.cursor with
  | some c =>
    if s.callsMacros && callBegins c then
      expandCall (← readCall)
      pure true
    else pure false
  | none => pure false

/-- Replaces the first macro call that a match holds or that stands right behind it, and goes back
to the start of the match. Says whether there was one. -/
def expandInMatch (start : Nat) (m : Match) : Run Scanner Bool := do
  let s ← Run.get
  if !s.callsMacros then pure false
  else
    let c := Cursor.mk (← onStream Stream.theCursor).line start
    -- A call right behind the match still belongs to the token: its pattern most likely stopped at
    -- the dollar sign.
    match Call.findStart? c.previous? c.rest (m.stop - start) with
    | none => pure false
    | some offset =>
      onStream (Stream.seek (start + offset))
      discard expandAtCursor
      -- The token is scanned again from its start, with the text of the macro in place.
      onStream (Stream.seek start)
      pure true

/-! ## Tokens -/

/-- The first of several patterns that matches at a cursor. -/
def firstMatch? (patterns : List TokenPattern) (c : Cursor) : Option (TokenPattern × Match) :=
  let focus := Regex.Focus.ofLine c.line c.pos
  patterns.findSome? fun p => (p.regex.matchFrom focus).map (p, ·)

/-- The end of the current input: the token to deliver, or none to go on with the
including input. -/
def endOfInput : Run Scanner (Option Token) := do
  let s ← Run.get
  if s.mode != s.defaultMode then
    let start := (s.modeStart.orElse fun _ => s.tokenStart).getD s.position
    let lineNo : Int := (s.current?.map Stream.lineNo).getD 0
    -- From here on positions tell the line where the token starts.
    Run.set { s with lineLag := lineNo - start.line }
    error "runaway_token" ("Unterminated token starting at line " ++ toString start.line)
  else
    match s.inputs with
    | done :: parent :: below =>
      Run.emit (.fileCompleted done.stream.name)
      -- What had been pushed back in the parent comes next, unless the routine at the end of the
      -- file goes on with another one.
      Run.set { s with inputs := { parent with saved := none } :: below, pending := parent.saved }
      discard (perform done.atEnd)
      let token := (← Run.get).pending
      Run.modify fun s => { s with pending := none }
      pure token
    | _ =>
      let token := Token.endOfInput s.position
      Run.set { s with ended := some token }
      pure (some token)

/-- What no pattern matches is an error. -/
def reportUnmatched : Run Scanner Unit := do
  let c ← onStream Stream.theCursor
  -- Blanks at the very end belong to a token that was not finished.
  if (← onStream Stream.isReadUp) && (c.peek 1).all Text.isBlank then
    error "unexpected_eof" "Unexpected end of file found"
  else
    error "no_token_match"
      ("Unexpected characters found: '" ++ String.ofList (c.peek 10) ++ "...'")

/-- Scans at the cursor: delivers a token, or none to scan again. -/
def scanAtCursor : Run Scanner (Option Token) := do
  Run.modify fun s => { s with tokenStart := some s.position }
  let start := (← Run.get).position
  if ← expandAtCursor then pure none
  else
    let s ← Run.get
    let c ← onStream Stream.theCursor
    match firstMatch? ((s.lexicon.patterns? s.mode).getD []) c with
    | none =>
      reportUnmatched
      pure none
    | some (p, m) =>
      onStream (Stream.seek m.stop)
      -- Calls in text that is passed over, such as comments, are left alone.
      let expanded ← if p.isSkipped then pure false else expandInMatch c.pos m
      if expanded then pure none
      else
        let (kind, value) ← match p.routine with
          | some routine => perform (routine m)
          | none => pure (p.kind, Value.text m.text)
        -- Without a kind there is no token, and scanning goes on.
        pure (kind.map (⟨·, value, some start⟩))

/-- One round of scanning. -/
def scanRound : Run Scanner (Option Token) := do
  if ← onStream Stream.readyNextLine then
    onStream (Run.modify Stream.cleanup)
    scanAtCursor
  else endOfInput

/-- The next token, scanned in at most `rounds` rounds. A token that was pushed back comes first,
and once the end of the whole input was reached it is delivered for ever. -/
def next (rounds : Nat) : Run Scanner Token := do
  let s ← Run.get
  match s.pending, s.ended with
  | some token, _ =>
    Run.set { s with pending := none }
    pure token
  | none, some token => pure token
  | none, none => if s.inputs.isEmpty then Run.refuse .notOpened else Run.repeated scanRound rounds

theorem next_of_pending {s : Scanner} {token : Token} (rounds : Nat) (h : s.pending = some token) :
    (next rounds).run s = ⟨.ok token, { s with pending := none }, []⟩ := by
  simp [next, h, Except.map]

theorem next_of_ended {s : Scanner} {token : Token} (rounds : Nat) (h : s.pending = none)
    (he : s.ended = some token) : (next rounds).run s = ⟨.ok token, s, []⟩ := by
  simp [next, h, he]

theorem next_of_closed {s : Scanner} (rounds : Nat) (h : s.pending = none) (he : s.ended = none)
    (hi : s.inputs = []) :
    (next rounds).run s = ⟨.error (.grammar .notOpened), s, []⟩ := by
  simp [next, h, he, hi]

end Scanner

end GrammarEngine
