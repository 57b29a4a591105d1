import GrammarEngine.Fault
import GrammarEngine.Macro.Table
import GrammarEngine.Regex.Match

/-!
# Routines

The author of a scanner attaches routines to its patterns: a routine is run when the pattern has
matched, may ask the scanner for things, and ends with the kind and the value of the token. A
routine may also be left behind when a file is included, to be run when that file is done.

A routine is a tree of requests, so a statement about all routines is a statement about all trees,
and one about routines that only switch modes is one about the trees with only such requests.
-/

namespace GrammarEngine

/-- A mode of a scanner: a name, or the nameless mode. -/
abbrev Mode := Option String

/-- What a scanner does for the author of its patterns. Each request but the last two goes on with a
rest; a fault in a request ends the routine. -/
inductive Routine where
  /-- Makes a mode the current one. -/
  | setMode (mode : Mode) (rest : Routine)
  /-- Makes a mode the current one, and keeps the previous one for later. -/
  | pushMode (mode : Mode) (rest : Routine)
  /-- Returns to the mode kept last. -/
  | popMode (rest : Routine)
  /-- Replaces the last characters scanned. -/
  | inject (text : String) (length : Nat) (rest : Routine)
  /-- Goes on with a file; `atEnd` is run once that is done. The rest gets the full name
  of the file. -/
  | includeFile (name : String) (position : Option Position) (atEnd : Routine)
      (rest : String → Routine)
  /-- Defines a macro. -/
  | addMacro (definition : Macro) (rest : Routine)
  /-- Reports a message. -/
  | report (severity : Severity) (id text : String) (position : Option Position) (data : Payload)
      (rest : Routine)
  /-- Pushes a token back. -/
  | pushBack (token : Token) (rest : Routine)
  /-- Leaves a note with the current mode and position. -/
  | note (label : String) (rest : Routine)
  /-- Looks at the position and the mode. -/
  | look (rest : Position → Mode → Routine)
  /-- Gives up. -/
  | fail (fault : Fault)
  /-- Ends with a token, or without one if there is no kind. -/
  | done (kind : Option String) (value : Value)

/-- The routine that does nothing. -/
def Routine.idle : Routine := .done none .nothing

instance : Inhabited Routine := ⟨Routine.idle⟩

/-! ## Patterns -/

/-- What a scanner looks for: an expression, the kind of the token it makes, and the routine to run
on a match. Without a kind and a routine the text is passed over. -/
structure TokenPattern where
  kind : Option String
  regex : Regex
  routine : Option (Match → Routine)

/-- Whether text that matches a pattern is passed over unseen. -/
def TokenPattern.isSkipped (p : TokenPattern) : Bool := p.kind.isNone && p.routine.isNone

/-- The patterns of every mode, in the order in which they are tried. -/
abbrev Lexicon := List (Mode × List TokenPattern)

namespace Lexicon

/-- Adds a pattern to a mode, behind those it has. -/
def add (mode : Mode) (p : TokenPattern) : Lexicon → Lexicon
  | [] => [(mode, [p])]
  | (m, patterns) :: rest =>
    if m = mode then (m, patterns ++ [p]) :: rest else (m, patterns) :: add mode p rest

/-- The patterns of a mode, if it has any. -/
def patterns? (lexicon : Lexicon) (mode : Mode) : Option (List TokenPattern) := lexicon.lookup mode

theorem patterns?_add_self (mode : Mode) (p : TokenPattern) (lexicon : Lexicon) :
    patterns? (lexicon.add mode p) mode = some ((lexicon.patterns? mode).getD [] ++ [p]) := by
  induction lexicon with
  | nil => simp [add, patterns?]
  | cons entry rest ih =>
    obtain ⟨m, patterns⟩ := entry
    unfold add
    by_cases h : m = mode
    · simp [h, patterns?]
    · have hb : (mode == m) = false := by simpa using Ne.symm h
      simpa [h, patterns?, List.lookup_cons, hb] using ih

end Lexicon

end GrammarEngine
