import GrammarEngine.MessageLog
import GrammarEngine.Scanner.Routine
import GrammarEngine.Stream.Basic

/-!
# Scanners

A scanner reads a master input and the files included from it. The inputs being read form a
stack; the topmost one is the current one. The scanner has a mode, which says what patterns it
looks for, holds at most one token that was pushed back, and remembers the end of the whole input
once it was reached.

This module holds what is done between tokens: switching modes, opening, closing and including
inputs, pushing a token back, and reporting. All of it can be asked for by a routine.

Main results:

* `setMode_of_none`, `popMode_nil`, `pushBack_of_some` — refused requests change nothing.
-/

namespace GrammarEngine

/-- An input being read. `saved` is the token that had been pushed back when the next file was
included, and `atEnd` is run when the input is done. -/
structure Input where
  stream : Stream
  saved : Option Token := none
  atEnd : Routine := .idle

/-- What a routine noted: a label, the mode and the position. -/
structure Note where
  label : String
  mode : Mode
  position : Position

/-- A scanner. -/
structure Scanner where
  /-- The file to read, or the text itself. -/
  master : String
  lexicon : Lexicon
  defaultMode : Mode
  /-- Whether macro calls are recognized at all. -/
  callsMacros : Bool := true
  /-- So many expansions may be open at a time. -/
  maxDepth : Nat := 20
  /-- The label of text that is not read from a file. -/
  label : String := "<buffer>"
  disk : Disk := {}
  messages : MessageLog := {}
  macros : MacroTable := {}
  mode : Mode
  /-- The modes to return to, the latest first. -/
  modeStack : List Mode := []
  /-- Where the token being scanned starts. -/
  tokenStart : Option Position := none
  /-- Where the token started in which the default mode was left. -/
  modeStart : Option Position := none
  readsLabel : Bool := false
  /-- The inputs, the current one first. -/
  inputs : List Input := []
  /-- The token that was pushed back. -/
  pending : Option Token := none
  /-- The token of the end of the whole input, once that was reached. -/
  ended : Option Token := none
  /-- How far line numbers in positions lag behind. -/
  lineLag : Int := 0
  notes : List Note := []

namespace Scanner

variable {α : Type}

/-- A scanner that has not been opened. The default mode needs a pattern. -/
def make (master : String) (lexicon : Lexicon) (defaultMode : Mode) : Except Fault Scanner :=
  match lexicon.patterns? defaultMode with
  | none => .error (.grammar (.undefinedMode defaultMode))
  | some _ =>
    .ok { master := master, lexicon := lexicon, defaultMode := defaultMode, mode := defaultMode }

/-! ## Where the scanner is -/

/-- The current input. -/
def current? (s : Scanner) : Option Stream := s.inputs.head?.map Input.stream

/-- The position of the cursor. -/
def position (s : Scanner) : Position :=
  match s.current? with
  | none => ⟨if s.readsLabel then s.label else s.master, 0, 0⟩
  | some stream => ⟨stream.name, stream.lineNo - s.lineLag, stream.column⟩

/-- The macros being expanded at the cursor, the innermost first. -/
def history (s : Scanner) : List MacroCall :=
  (s.current?.map Stream.expansions).getD [] |>.map fun e =>
    ⟨e.definition.name, e.args.tail, e.definition.definedAt⟩

/-- The current line. -/
def line? (s : Scanner) : Option String := s.current?.map fun stream => String.ofList stream.line

/-- Works on the current input, which has to be there. -/
def onStream (x : Run Stream α) : Run Scanner α := fun s =>
  match s.inputs with
  | [] => Run.fail .precondition s
  | input :: below =>
    let inner := x input.stream
    ⟨inner.result, { s with inputs := { input with stream := inner.state } :: below }, inner.trace⟩

/-! ## Messages -/

/-- Works on the message log. -/
def onMessages (x : Run MessageLog α) : Run Scanner α :=
  Run.zoom messages (fun log s => { s with messages := log }) x

/-- Reports a message; without a position it is about the cursor. -/
def report (severity : Severity) (id text : String) (position : Option Position) (data : Payload) :
    Run Scanner Unit := do
  let s ← Run.get
  discard (onMessages
    (MessageLog.add ⟨severity, id, text, position.getD s.position, s.line?, data, s.history⟩))

/-- Reports an error: the run does not go on from here. -/
def errorAt (id text : String) (position : Option Position) (data : Payload) : Run Scanner α := do
  let s ← Run.get
  onMessages (MessageLog.error id text (position.getD s.position) s.line? data s.history)

/-- Reports an error at the cursor. -/
def error (id text : String) : Run Scanner α := errorAt id text none .null

/-! ## Modes -/

/-- Switches to a mode that has patterns. When the default mode is left, the start of the current
token is kept, in case the scanner never returns. -/
def setMode (mode : Mode) : Run Scanner Unit := do
  let s ← Run.get
  match s.lexicon.patterns? mode with
  | none => Run.refuse (.undefinedMode mode)
  | some _ =>
    -- Changes between other modes do not touch the start that was kept.
    let leaves := s.mode == s.defaultMode && mode != s.defaultMode
    Run.set { s with mode := mode, modeStart := if leaves then s.tokenStart else s.modeStart }

/-- Switches to a mode, and keeps the previous one. -/
def pushMode (mode : Mode) : Run Scanner Unit := do
  let previous := (← Run.get).mode
  setMode mode
  Run.modify fun s => { s with modeStack := previous :: s.modeStack }

/-- Returns to the mode kept last. -/
def popMode : Run Scanner Unit := do
  match (← Run.get).modeStack with
  | [] => Run.refuse .emptyModeStack
  | mode :: below =>
    -- The mode that was kept had patterns when it was left, and patterns are never taken away.
    Run.modify fun s => { s with modeStack := below }
    setMode mode

/-! ## Inputs -/

/-- Stops reading. -/
def close (s : Scanner) : Scanner := { s with inputs := [], pending := none }

/-- Opens a file. Where the system refuses, an error is reported; undecodable text is a
fault of its own. -/
def openFile (name id complaint : String) (position : Option Position) : Run Scanner Stream := do
  match Stream.ofFile? (← Run.get).disk name with
  | .ok stream =>
    Run.emit (.fileOpened name)
    pure stream
  | .error fault =>
    match fault.systemText? with
    | some reason => errorAt id (complaint ++ name ++ ": " ++ reason) position .null
    | none => Run.fail fault

/-- Starts reading the master input from the top. Of a previous run nothing is left, neither its
mode nor its end. -/
def start (readsLabel : Bool) : Run Scanner Unit := do
  Run.modify fun s =>
    { s.close with
      readsLabel := readsLabel
      ended := none
      lineLag := 0
      tokenStart := none
      modeStart := none
      modeStack := []
      mode := s.defaultMode }
  let s ← Run.get
  let stream ←
    if readsLabel then pure (Stream.ofText s.master s.label)
    else openFile s.master "open_file" "Cannot open file " none
  Run.modify fun s => { s with inputs := [{ stream := stream }] }

/-- The full name of a file that is named in the current input: a relative name is seen from the
directory of that input. -/
def fullName (s : Scanner) (name : String) : String :=
  match s.current? with
  | some stream =>
    if Location.isAbsolute name || stream.directory.isEmpty then name
    else Location.join stream.directory name
  | none => name

/-- Goes on with a file, unless it is being read already. What had been pushed back is kept for
afterwards, when `atEnd` is run. Returns the full name of the file. -/
def includeFile (name : String) (position : Option Position) (atEnd : Routine) :
    Run Scanner String := do
  let s ← Run.get
  let full := s.fullName name
  -- Two names of one file lead to the same place, so no file is read inside itself.
  if s.inputs.any (·.stream.location? == some (Location.ofName full)) then
    errorAt "include_recursion" ("Recursive inclusion of " ++ full ++ " detected") position .null
  else
    let stream ← openFile full "bad_include" "Cannot open include file " position
    Run.modify fun s =>
      -- What was pushed back stands behind the included file.
      let below := match s.inputs with
        | [] => []
        | input :: rest => { input with saved := s.pending } :: rest
      { s with inputs := { stream := stream, atEnd := atEnd } :: below, pending := none }
    pure full

/-- Pushes a token back, to be delivered next. There can be only one. -/
def pushBack (token : Token) : Run Scanner Unit := do
  let s ← Run.get
  match s.pending with
  | some pending => Run.fail (.secondPushBack token pending)
  | none => Run.set { s with pending := some token }

/-! ## Requests of routines -/

/-- Replaces the last characters scanned, and goes on scanning with the new text. -/
def inject (text : String) (length : Nat) : Run Scanner Unit := do
  if (← Run.get).inputs.isEmpty then Run.refuse .injectionIntoClosed
  else discard (onStream (Stream.injectText text.toList length))

/-- Defines a macro. -/
def addMacro (definition : Macro) (s : Scanner) : Scanner :=
  { s with macros := s.macros.add definition }

/-- A scanner with one more note. -/
def noted (label : String) (s : Scanner) : Scanner :=
  { s with notes := s.notes ++ [⟨label, s.mode, s.position⟩] }

/-- Runs a routine. -/
def perform : Routine → Run Scanner (Option String × Value)
  | .setMode mode rest => do
    setMode mode
    perform rest
  | .pushMode mode rest => do
    pushMode mode
    perform rest
  | .popMode rest => do
    popMode
    perform rest
  | .inject text length rest => do
    inject text length
    perform rest
  | .includeFile name position atEnd rest => do
    let full ← includeFile name position atEnd
    perform (rest full)
  | .addMacro definition rest => do
    Run.modify (addMacro definition)
    perform rest
  | .report severity id text position data rest => do
    report severity id text position data
    perform rest
  | .pushBack token rest => do
    pushBack token
    perform rest
  | .note label rest => do
    Run.modify (noted label)
    perform rest
  | .look rest => do
    let s ← Run.get
    perform (rest s.position s.mode)
  | .fail fault => Run.fail fault
  | .done kind value => pure (kind, value)

/-! ## Refused requests -/

theorem setMode_of_none {s : Scanner} {mode : Mode} (h : s.lexicon.patterns? mode = none) :
    (setMode mode).run s = ⟨.error (.grammar (.undefinedMode mode)), s, []⟩ := by
  simp [setMode, h]

theorem popMode_nil {s : Scanner} (h : s.modeStack = []) :
    popMode.run s = ⟨.error (.grammar .emptyModeStack), s, []⟩ := by
  simp [popMode, h]

theorem pushBack_of_some {s : Scanner} {token pending : Token} (h : s.pending = some pending) :
    (pushBack token).run s = ⟨.error (.secondPushBack token pending), s, []⟩ := by
  simp [pushBack, h]

end Scanner

end GrammarEngine
