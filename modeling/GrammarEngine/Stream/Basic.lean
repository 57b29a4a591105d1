import GrammarEngine.Cursor
import GrammarEngine.Disk
import GrammarEngine.Macro.Table
import GrammarEngine.Run

/-!
# Streams

A stream is one source of input, a file or a text given a label. It is read line by line; the
current line carries a cursor, and may be edited in front of it: macros put their text there.
The stream knows which expansions the cursor is still inside of, each with the offset just
behind its text.

Main results:

* `readLine_append` — a line and the text after it are the whole text.
* `Expansion.shift_stop` — how far the end of an open expansion moves.
-/

namespace GrammarEngine

/-- Where the text of a stream comes from. -/
inductive Origin where
  | label
  | file (location : Location)
deriving DecidableEq, Repr, Inhabited

/-- A macro whose text is still being scanned. `args` begin with the name as written; `stop` is the
offset in the line just behind the text. -/
structure Expansion where
  definition : Macro
  args : List String
  text : String
  stop : Int
deriving DecidableEq, Repr, Inhabited

/-- An expansion once text has been replaced from `start` on, so that the line is `growth` longer:
its end moves if it lies behind the start. -/
def Expansion.shift (start : Nat) (growth : Int) (e : Expansion) : Expansion :=
  if start < e.stop then { e with stop := e.stop + growth } else e

theorem Expansion.shift_stop (start : Nat) (growth : Int) (e : Expansion) :
    (e.shift start growth).stop = if (start : Int) < e.stop then e.stop + growth else e.stop := by
  unfold Expansion.shift
  split <;> rfl

/-- A source of input: the text not yet read, the current line if there is one, the number of lines
read, and the open expansions, the innermost first. -/
structure Stream where
  name : String
  origin : Origin
  unread : List Char
  isClosed : Bool := false
  cursor : Option Cursor := none
  lineNo : Nat := 0
  expansions : List Expansion := []
deriving Inhabited

/-- Splits off the first line of a text, with its line feed. -/
def readLine (text : List Char) : List Char × List Char :=
  (text.takeWhile (· != '\n') ++ (text.dropWhile (· != '\n')).take 1,
    (text.dropWhile (· != '\n')).drop 1)

theorem readLine_append (text : List Char) : (readLine text).1 ++ (readLine text).2 = text := by
  simp only [readLine, List.append_assoc, List.take_append_drop, List.takeWhile_append_dropWhile]

namespace Stream

/-- A text with a label. -/
def ofText (text label : String) : Stream :=
  { name := label, origin := .label, unread := text.toList }

/-- The file of a name. -/
def ofFile? (disk : Disk) (name : String) : Except Fault Stream := do
  let text ← disk.read name
  pure { name := name, origin := .file (Location.ofName name), unread := text }

/-- Opens the file of a name. -/
def openFile {σ : Type} (disk : Disk) (name : String) : Run σ Stream := do
  let s ← Run.ofExcept (ofFile? disk name)
  Run.emit (.fileOpened name)
  pure s

/-- The directory of a file; a labelled text has none. -/
def directory (s : Stream) : String :=
  match s.origin with
  | .label => ""
  | .file _ => Location.directory s.name

/-- The place of a file. -/
def location? (s : Stream) : Option Location :=
  match s.origin with
  | .label => none
  | .file location => some location

/-- The current line. -/
def line (s : Stream) : List Char := (s.cursor.map Cursor.line).getD []

/-- The offset of the cursor in the current line. -/
def pos (s : Stream) : Nat := (s.cursor.map Cursor.pos).getD 0

/-- The column of the cursor. -/
def column (s : Stream) : Nat := (s.cursor.map Cursor.column).getD 0

/-- The next characters of the current line. -/
def peek (s : Stream) (count : Nat) : List Char := (s.cursor.map (Cursor.peek count)).getD []

/-- Whether an expression matches at the cursor. -/
def test (s : Stream) (regex : Regex) : Bool := s.cursor.any (Cursor.test regex)

/-- A stream that delivers nothing any more. -/
def closed (s : Stream) : Stream := { s with isClosed := true, cursor := none }

/-! ## Lines -/

/-- Takes the next line from the text not yet read. -/
def takeLine : Run Stream (List Char) := do
  let s ← Run.get
  if s.isClosed then Run.fail .closedStream
  else
    let (line, unread) := readLine s.unread
    Run.set { s with unread := unread }
    pure line

/-- Makes sure that there is text at the cursor, and reads the next line if need be. Says whether
there is; at the end there is no current line any more. A new line ends all expansions. -/
def readyNextLine : Run Stream Bool := do
  let s ← Run.get
  if s.cursor.any (!·.atEnd) then pure true
  else
    let line ← takeLine
    if line.isEmpty then
      Run.modify fun s => { s with cursor := none }
      pure false
    else
      -- The text of a macro never outlives the line that it was put into.
      Run.modify fun s =>
        { s with lineNo := s.lineNo + 1, cursor := some (.ofLine line), expansions := [] }
      pure true

/-- The cursor, which has to be there. -/
def theCursor : Run Stream Cursor := do Run.orFail (← Run.get).cursor .precondition

/-- Reads the next line onto the end of the current one, if there is a next line. -/
def appendNextLine : Run Stream Bool := do
  let c ← theCursor
  let line ← takeLine
  if line.isEmpty then pure false
  else
    Run.modify fun s => { s with lineNo := s.lineNo + 1, cursor := some (c.append line) }
    pure true

/-- Whether the text is read up, the current line aside. -/
def isReadUp : Run Stream Bool := do
  let s ← Run.get
  if s.isClosed then Run.fail .closedStream else pure s.unread.isEmpty

/-- Matches an expression at the cursor; a match moves the cursor behind it. -/
def matchHere (regex : Regex) : Run Stream (Option Match) := do
  let (found, c) := (← theCursor).matchHere regex
  Run.modify fun s => { s with cursor := some c }
  pure found

/-- Moves the cursor in the current line. -/
def seek (pos : Nat) : Run Stream Unit := do
  let c ← theCursor
  Run.modify fun s => { s with cursor := some (c.seek pos) }

/-! ## Text put into the line -/

/-- Replaces the `length` characters in front of the cursor, where there have to be as many. Returns
the offset behind the new text. -/
def injectText (text : List Char) (length : Nat) : Run Stream Nat := do
  let c ← theCursor
  -- Expansions that are still open around the cursor grow or shrink with the line.
  let start := c.pos - length
  Run.modify fun s =>
    { s with
      cursor := some (c.splice length text)
      expansions := s.expansions.map (Expansion.shift start (text.length - length)) }
  pure (start + text.length)

/-- Replaces the call of `length` characters in front of the cursor by the text of the macro, and
opens the expansion, unless `maxDepth` expansions are open already. Says whether it was done. -/
def injectMacro (definition : Macro) (args : List String) (text : String) (length maxDepth : Nat) :
    Run Stream Bool := do
  if maxDepth ≤ (← Run.get).expansions.length then pure false
  else
    let stop ← injectText text.toList length
    Run.modify fun s =>
      { s with expansions := ⟨definition, args, text, stop⟩ :: s.expansions }
    pure true

/-- Forgets the innermost expansions whose text lies before the cursor. -/
def cleanup (s : Stream) : Stream :=
  { s with expansions := s.expansions.dropWhile (·.stop ≤ s.pos) }

end Stream

end GrammarEngine
