import GrammarEngine.Message
import GrammarEngine.State

/-!
# Faults

What can go wrong falls into two tiers. A fault of the grammar is a mistake of whoever declared the
rules or drives the parser; it carries its cause, and one function gives the wording. A fault of the
input has been recorded as a message by the time it arises, and carries that message. Besides there
are the faults of calls made where their precondition does not hold, and those of the file system.
-/

namespace GrammarEngine

/-- The causes for which a grammar, or the use that is made of it, is refused. -/
inductive GrammarFault where
  | notAToken (given : Payload)
  | unmarkedToken (written : String)
  | decoratedEnd (written : String)
  | namelessToken (written : String)
  | argumentIndex (index : Int) (pattern : List Descriptor)
  | tokenIndex (index : Int) (pattern : List Descriptor)
  | supportLevel (name : String)
  | noPatternYet (rule : String)
  | noKeyword (rule : String)
  | noRuleYet
  | duplicateRule (rule : String)
  | noPattern (rule : String)
  | unknownInPattern (name : String) (pattern : List Descriptor)
  | unknownInRule (name rule : String)
  | unknownCategory (name rule : String)
  | unknownStart (rule : String)
  | noStartState (rule : String)
  | unknownRule (rule : String)
  | lostState (key : Key)
  | namelessArgument
  | undefinedMode (mode : Option String)
  | emptyModeStack
  | injectionIntoClosed
  | notOpened

/-- A mode in a diagnostic. -/
def quotedMode (mode : Option String) : String := (mode.map Text.quoted).getD "None"

/-- The wording of a fault of the grammar. -/
def GrammarFault.message : GrammarFault → String
  | .notAToken given => "Pattern tokens must be non-empty strings, not " ++ given.quoted
  | .unmarkedToken written =>
    "All pattern tokens must start with a type identifier [!$_.]: " ++ Text.quoted written
  | .decoratedEnd written => "The end of input token must be a bare '.': " ++ Text.quoted written
  | .namelessToken written => "Pattern token " ++ Text.quoted written ++ " has no name"
  | .argumentIndex index pattern =>
    "Argument index " ++ toString index ++ " out of range for pattern " ++ renderTokens pattern
  | .tokenIndex index pattern =>
    "Token index " ++ toString index ++ " too large for pattern " ++ renderTokens pattern
  | .supportLevel name => "Unknown support level " ++ name
  | .noPatternYet rule => "No pattern defined yet for rule " ++ rule
  | .noKeyword rule => "No documentation keyword defined for the last pattern of " ++ rule
  | .noRuleYet => "No rule has been declared yet"
  | .duplicateRule rule => "Rule " ++ rule ++ " already exists"
  | .noPattern rule => "Rule " ++ rule ++ " must have at least one pattern"
  | .unknownInPattern name pattern =>
    "Unknown rule " ++ name ++ " referenced in pattern '" ++ renderTokens pattern ++ "'"
  | .unknownInRule name rule => "Unknown rule " ++ name ++ " referenced in rule " ++ rule
  | .unknownCategory name rule => "Unknown variable " ++ name ++ " referenced in rule " ++ rule
  | .unknownStart rule => "Unknown start rule " ++ rule
  | .noStartState rule => "No start state for rule " ++ rule
  | .unknownRule rule => "Unknown rule " ++ rule
  | .lostState key => "Could not restore parser state " ++ key.render
  | .namelessArgument => "Argument documentation needs a name"
  | .undefinedMode mode => "Undefined scanner mode " ++ quotedMode mode
  | .emptyModeStack => "Scanner mode stack is empty"
  | .injectionIntoClosed => "inject_text called on a closed scanner"
  | .notOpened => "The scanner has not been opened"

/-- Everything that can go wrong. `exhausted` is no verdict on grammar or input: a computation was
given too few steps. -/
inductive Fault where
  | grammar (cause : GrammarFault)
  | ambiguous (state : State) (existing conflicting : Transition)
  | secondPushBack (token pending : Token)
  | pushBackOccupied
  | parse (message : Message)
  | fatal (message : Message)
  | missingKey
  | outOfRange
  | precondition
  | wrongType
  | badNumeral
  | badName
  | closedStream
  | fileMissing
  | isDirectory
  | notDirectory
  | undecodable
  | exhausted

namespace Fault

/-- The wording of a fault that has one of its own. -/
def message? : Fault → Option String
  | .grammar cause => some cause.message
  | .ambiguous state existing conflicting =>
    some ("Ambiguous transition for " ++ conflicting.token.render ++ " in\n" ++ state.dump ++
      "\nThe following transitions both match:\n  " ++ conflicting.render ++ "\n  " ++
        existing.render)
  | .secondPushBack token pending =>
    some ("Cannot return more than 1 token in a row: " ++ token.quoted ++ " after " ++
      pending.quoted)
  | .pushBackOccupied => some "one token only"
  | .parse message | .fatal message => some message.render
  | _ => none

/-- The words in which the system says why a file cannot be opened. -/
def systemText? : Fault → Option String
  | .fileMissing => some "No such file or directory"
  | .isDirectory => some "Is a directory"
  | .notDirectory => some "Not a directory"
  | _ => none

end Fault

/-- A chain of fallible computations succeeds if each of them does. -/
theorem bind_eq_ok {ε α β : Type} {x : Except ε α} {f : α → Except ε β} {b : β} :
    (x >>= f) = .ok b ↔ ∃ a, x = .ok a ∧ f a = .ok b := by
  cases x <;> simp [bind, Except.bind]

end GrammarEngine
