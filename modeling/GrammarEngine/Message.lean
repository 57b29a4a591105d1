import GrammarEngine.Payload
import GrammarEngine.Text.Blank
import GrammarEngine.Token

/-!
# Messages

A message says what was found in the input, how severe it is, where it was found and in which line,
and which macros were being expanded there. Its text form is what the user of a grammar gets to see.
-/

namespace GrammarEngine

/-- How severe a message is. A critical message counts as an error, and does not stop anything. -/
inductive Severity where
  | fatal
  | error
  | critical
  | warning
  | info
  | debug
deriving DecidableEq, Repr, Inhabited

namespace Severity

/-- The name of a severity. -/
def name : Severity → String
  | .fatal => "fatal"
  | .error => "error"
  | .critical => "critical"
  | .warning => "warning"
  | .info => "info"
  | .debug => "debug"

/-- The word in front of the text of a message. -/
def label : Severity → String
  | .fatal => "Fatal"
  | .error | .critical => "Error"
  | .warning => "Warning"
  | .info => "Info"
  | .debug => "Debug"

/-- Whether messages of a severity are counted as errors. -/
def counts : Severity → Bool
  | .error | .critical => true
  | _ => false

end Severity

/-- A macro call that was being expanded, with the place where the macro was defined. -/
structure MacroCall where
  name : String
  args : List String
  definedAt : Option Position
deriving DecidableEq, Repr, Inhabited

/-- A macro call in the history below a message. -/
def MacroCall.render (call : MacroCall) : String :=
  let args := call.args.map fun arg => " \"" ++ arg ++ "\""
  let written := "$\x7b" ++ call.name ++ String.join args ++ "\x7d"
  match call.definedAt with
  | some position => written ++ " (defined at " ++ position.render ++ ")"
  | none => written

/-- A message about the input. -/
structure Message where
  severity : Severity
  id : String
  text : String
  position : Option Position
  line : Option String
  data : Payload
  calls : List MacroCall
deriving Inhabited

/-- The text form of a message: the position, the text, the line it was found in, and the
open macro calls. -/
def Message.render (m : Message) : String :=
  let place := (m.position.map fun p => p.render ++ " ").getD ""
  let line := match m.line with
    | none | some "" => ""
    | some line => "\n" ++ String.ofList (Text.trimRight (· == '\n') line.toList)
  let history := if m.calls.isEmpty then "" else
    "\nMacro call history:" ++ String.join (m.calls.map fun call => "\n  " ++ call.render)
  place ++ m.severity.label ++ ": " ++ m.text ++ line ++ history

end GrammarEngine
