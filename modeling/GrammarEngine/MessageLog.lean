import GrammarEngine.Run

/-!
# The message log

Messages are collected in a log. An error ends the run that reports it, and so does a warning if
the log is told to abort on warnings; the message is in the log by then. Every user of the
library has a log of its own.

Main results:

* `add_error` — adding an error never returns.
* `recorded_errors` — the count of errors goes up by one exactly for messages that count.
-/

namespace GrammarEngine

/-- The messages so far, the oldest first, and the number of errors among them. `console` tells the
log to echo what it records. -/
structure MessageLog where
  messages : List Message := []
  errors : Nat := 0
  console : Bool := false
  abortOnWarning : Bool := false
deriving Inhabited

namespace MessageLog

/-- A log with one more message. -/
def recorded (m : Message) (log : MessageLog) : MessageLog :=
  { log with
    messages := log.messages ++ [m]
    errors := if m.severity.counts then log.errors + 1 else log.errors }

/-- The fault that a message causes once it is recorded. -/
def fault? (log : MessageLog) (m : Message) : Option Fault :=
  match m.severity with
  | .fatal => some (.fatal m)
  | .error => some (.parse m)
  | .warning => if log.abortOnWarning then some (.parse m) else none
  | .critical | .info | .debug => none

/-- Records a message and echoes it if the log is told to. -/
def write (m : Message) : Run MessageLog Unit := do
  let log ← Run.get
  Run.set (log.recorded m)
  if log.console then Run.emit (.reported m)

/-- Adds a message. -/
def add (m : Message) : Run MessageLog Message := do
  write m
  match (← Run.get).fault? m with
  | some fault => Run.fail fault
  | none => pure m

/-- Reports an error: the run does not go on from here. -/
def error {α : Type} (id text : String) (position : Option Position) (line : Option String)
    (data : Payload) (calls : List MacroCall) : Run MessageLog α := do
  let m : Message := ⟨.error, id, text, position, line, data, calls⟩
  write m
  Run.fail (.parse m)

/-- Forgets all messages. -/
def clear (log : MessageLog) : MessageLog := { log with messages := [], errors := 0 }

/-- The text forms of all messages. -/
def render (log : MessageLog) : String := "\n".intercalate (log.messages.map Message.render)

theorem recorded_errors (m : Message) (log : MessageLog) :
    (log.recorded m).errors = log.errors + (if m.severity.counts then 1 else 0) := by
  unfold recorded
  split <;> rfl

/-- An error is added by reporting it. -/
theorem add_error (id text : String) (position : Option Position) (line : Option String)
    (data : Payload) (calls : List MacroCall) :
    add ⟨.error, id, text, position, line, data, calls⟩ =
      error id text position line data calls := by
  funext log
  rfl

end MessageLog

end GrammarEngine
