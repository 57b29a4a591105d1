import GrammarEngine.Parser.Source
import GrammarEngine.Parser.Script

/-!
# Ready-made actions

Actions that do one thing each: compute a value from those of the elements, tell where the pattern
stands, report something, work on a scanner, or change the grammar. They can be put in sequence.

An action on a scanner works where the source of tokens is a scanner; a queue of tokens refuses it.

Main results:

* `sequence_single` — a sequence of one action is that action.
-/

namespace GrammarEngine

namespace Script

variable {σ : Type}

/-- Goes on with the value of a script. -/
def andThen (next : Value → Script σ) : Script σ → Script σ
  | .source work rest => .source work fun v => andThen next (rest v)
  | .here rest => .here fun p => andThen next (rest p)
  | .slots rest => .slots fun vs ps => andThen next (rest vs ps)
  | .error id text position data => .error id text position data
  | .warning id text position data rest => .warning id text position data (andThen next rest)
  | .limit kinds rest => .limit kinds (andThen next rest)
  | .amend rule clause rest => .amend rule clause (andThen next rest)
  | .dropRule rule rest => .dropRule rule (andThen next rest)
  | .declareRule rule clauses rest => .declareRule rule clauses (andThen next rest)
  | .rebuild rest => .rebuild (andThen next rest)
  | .fail fault => .fail fault
  | .done value => next value

/-- Works on the source, without a value. -/
def onSource (work : Run σ Unit) : Script σ := .source (do work; pure .nothing) .done

end Script

namespace Action

variable {σ τ : Type}

/-! ## Values -/

/-- An action that only computes a value. -/
def compute (f : List Value → Value) : Action σ := fun values => .done (f values)

/-- The value of one element, which has to be there. Negative indices count from the end. -/
def element (index : Int) : Action σ := fun values =>
  match elementAt values index with
  | .ok v => .done v
  | .error fault => .fail fault

/-- The text of one element. -/
def textOf (index : Int) (rest : String → Script σ) : Action σ := fun values =>
  (element index values).andThen fun v =>
    match v with
    | .text s => rest s
    | _ => .fail .wrongType

/-- A value that depends on nothing. -/
def constant (v : Value) : Action σ := compute fun _ => v

/-- All values as a list. -/
def list : Action σ := compute .list

/-- All values as a series. -/
def series : Action σ := compute .series

/-- All values as a list behind a tag. -/
def tagged (tag : String) : Action σ := compute fun values => .list (.text tag :: values)

/-- A position as a value. -/
def place : Option Position → Value
  | some p => .text (p.file ++ ":" ++ toString p.line ++ ":" ++ toString p.column)
  | none => .nothing

/-- Where the pattern began, where its elements stand, and how many values there are. -/
def places : Action σ := fun _ =>
  .here fun first => .slots fun values positions =>
    .done (.list [place first, .list (positions.map place), .number values.length])

/-- Some actions one after the other, with the value of the last one. -/
def sequence : List (Action σ) → Action σ
  | [] => constant .nothing
  | [action] => action
  | action :: rest => fun values => (action values).andThen fun _ => sequence rest values

theorem sequence_single (action : Action σ) : sequence [action] = action := rfl

/-! ## Reports -/

/-- Reports an error where the pattern began. -/
def complain (id text : String) : Action σ := fun _ => .error id text none .null

/-- Reports a warning where the pattern began. -/
def warn (id text : String) : Action σ := fun _ => .warning id text none .null (.done .nothing)

/-! ## Work on a scanner -/

/-- Works on the scanner that the tokens come from. -/
def scanning {α : Type} (work : Run Scanner α) : Run (τ ⊕ Scanner) α :=
  TokenSource.either (Run.fail .wrongType) work

/-- Works on the scanner, without a value. -/
def onScanner (work : Run Scanner Unit) : Action (τ ⊕ Scanner) :=
  fun _ => Script.onSource (scanning work)

/-- Goes on with the file that an element names, and returns its full name. -/
def includeFile (index : Int) : Action (τ ⊕ Scanner) :=
  textOf index fun file =>
    .source (scanning do pure (.text (← Scanner.includeFile file none .idle))) .done

/-- Defines the macro that one element names, with the text of another. -/
def defineMacro (name text : Int) : Action (τ ⊕ Scanner) := fun values =>
  textOf name (fun n =>
    textOf text (fun t => .here fun position =>
      Script.onSource (scanning (Run.modify (Scanner.addMacro ⟨n, t, position⟩)))) values) values

/-! ## Changes of the grammar -/

/-- Accepts only some kinds of tokens from now on. -/
def limit (kinds : List String) : Action σ := fun _ => .limit kinds (.done .nothing)

/-- Adds a keyword to a rule: the text of an element becomes a pattern of its own. -/
def define (rule : String) (index : Int) : Action σ := fun values =>
  (element index values).andThen fun v =>
    .amend rule (.pattern [.written (.text ("_" ++ v.shown))] (some (tagged rule)))
      (.rebuild (.done (.list [.text "defined", v])))

/-- Declares a rule anew, with other patterns. -/
def redefine (rule : String) (patterns : List (List Element × Option (Action σ))) : Action σ :=
  fun _ =>
    .dropRule rule
      (.declareRule rule (patterns.map fun (elements, action) => .pattern elements action)
        (.rebuild (.done (.list [.text "redefined", .text rule]))))

end Action

end GrammarEngine
