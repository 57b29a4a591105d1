import GrammarEngine.Fault

/-!
# Events and log records

While it works the library tells what happens: files are opened and completed, macros expanded,
tokens shifted and patterns reduced, tables compiled, messages reported. An event holds the facts;
the records of a log are made from it when somebody wants to read them.
-/

namespace GrammarEngine

/-- The logs that records go to. -/
inductive Logger where
  | action
  | states
  | scanner
  | messages
deriving DecidableEq, Repr

/-- The levels of log records. -/
inductive Level where
  | critical
  | error
  | warning
  | info
  | debug
deriving DecidableEq, Repr

/-- A line of a log. -/
structure Record where
  logger : Logger
  level : Level
  text : String
deriving DecidableEq, Repr

/-- The level at which a message is logged. -/
def Severity.level : Severity → Level
  | .fatal => .critical
  | .error | .critical => .error
  | .warning => .warning
  | .info => .info
  | .debug => .debug

/-- Something that happened. Stacks of states are given from the bottom up. -/
inductive Event where
  | fileOpened (file : String)
  | fileCompleted (file : String)
  | macroExpanded (position : Option Position) (name text : String)
  | loopedBack (state : Key) (value : Value)
  | shifted (stack : List Key) (value : Value) (target : Key)
  | reduced (stack : List Key) (rule : String) (result : Value)
  | compiled (rules : Nat) (table : Table)
  | reported (message : Message)

namespace Event

/-- A text with spaces after it up to a given width. -/
def pad (width : Nat) (text : String) : String :=
  text ++ String.ofList (List.replicate (width - text.length) ' ')

/-- The top of a stack, as wide as a column of the action log. -/
def renderStack (stack : List Key) : String :=
  let top := stack.drop (stack.length - 4)
  pad 40 ("[" ++ ", ".intercalate (top.map (Text.quoted ·.render)) ++ "]")

/-- The log records of an event. -/
def records : Event → List Record
  | .fileOpened file => [⟨.scanner, .info, "Parsing file " ++ file⟩]
  | .fileCompleted file => [⟨.scanner, .debug, "Completed file " ++ file⟩]
  | .macroExpanded position name text =>
    let place := (position.map Position.render).getD ""
    [⟨.scanner, .debug, place ++ " expanded macro " ++ name ++ " to " ++ Text.quoted text⟩]
  | .loopedBack state value =>
    [⟨.action, .info, "loop back in " ++ state.render ++ " on " ++ value.quoted⟩]
  | .shifted stack value target =>
    [⟨.action, .info,
      renderStack stack ++ " " ++ pad 15 value.quoted ++ " shift " ++ target.render⟩]
  | .reduced stack rule result =>
    [⟨.action, .info, renderStack stack ++ " reduce " ++ rule ++ " -> " ++ result.quoted⟩]
  | .compiled rules table =>
    let transitions := (table.map (·.transitions.length)).foldl (· + ·) 0
    ⟨.states, .debug, "Compiled " ++ toString rules ++ " rules into " ++ toString table.length ++
      " states with " ++ toString transitions ++ " transitions"⟩ ::
      table.map fun state => ⟨.states, .debug, state.dump⟩
  | .reported message => [⟨.messages, message.severity.level, message.render⟩]

end Event

end GrammarEngine
