import GrammarEngine.Regex.Notation
import GrammarEngine.Scanner.Post

/-!
# Ready-made lexicons

The patterns of three scanners: one for lists and simple statements, one for quoted strings,
and one for project plans with comments, cut marks, dates, strings in several quotes, argument
lists and variables.

An entry of a lexicon names its modes, or goes to the default mode if it names none.
-/

namespace GrammarEngine

/-- A pattern as it is written down: its kind, its expression, its modes, and the steps
of its routine. -/
structure Entry where
  kind : Option String
  written : String
  flags : Regex.Flags := {}
  modes : Option (List Mode) := none
  steps : Option (List Post) := none

/-- The pattern that an entry describes; there is none if its expression is malformed. -/
def Entry.pattern? (entry : Entry) : Option TokenPattern := do
  let regex ← Regex.parse? entry.written entry.flags
  pure ⟨entry.kind, regex, entry.steps.map fun steps => Post.routine entry.kind steps⟩

/-- The lexicon of several entries, with the mode of those that name none. -/
def Lexicon.ofEntries? (defaultMode : Mode) (entries : List Entry) : Option Lexicon :=
  entries.foldlM (fun lexicon entry => do
    let p ← entry.pattern?
    pure ((entry.modes.getD [defaultMode]).foldl (fun l mode => Lexicon.add mode p l) lexicon)) []

namespace Entry

/-- Blanks and comments, integers, identifiers, and punctuation. -/
def basic : List Entry :=
  [ { kind := none, written := "[ \\t\\r\\n]+" },
    { kind := none, written := "#[^\\n]*" },
    { kind := some "INTEGER", written := "\\d+", steps := some [.toNumber] },
    { kind := some "ID", written := "[A-Za-z_]\\w*" },
    { kind := some "LITERAL", written := "[\\[\\]()\x7b\x7d,;$]" } ]

/-- Words, and strings between double quotes, which have a mode of their own. -/
def strings : List Entry :=
  [ { kind := none, written := "\\s+" },
    { kind := some "ID", written := "\\w+" },
    { kind := none, written := "\"", steps := some [.pushMode "string"] },
    { kind := some "STRING", written := "[^\"]+", modes := some [some "string"] },
    { kind := none, written := "\"", modes := some [some "string"], steps := some [.popMode] } ]

/-- Project plans. Argument lists share most patterns with the plan itself. -/
def projectPlan : List Entry :=
  let plan : Option (List Mode) := some [some "tjp"]
  let planAndArgs : Option (List Mode) := some [some "tjp", some "args"]
  let only (mode : String) : Option (List Mode) := some [some mode]
  let home := "%HOME"
  [ { kind := none, written := "[ \\t\\n]+", modes := planAndArgs },
    { kind := none, written := "(?:#|//)[^\\n]*", modes := plan },
    { kind := none, written := "/\\*", modes := plan, steps := some [.pushMode "comment"] },
    { kind := none, written := "\\*/", modes := only "comment", steps := some [.popMode] },
    { kind := none, written := "(?:[^*\\n$]|\\*(?!/)|\\$)+|\\n", modes := only "comment" },
    { kind := none, written := "-8<-[ \\t]*\\n", modes := planAndArgs,
      steps := some [.pushMode "cut"] },
    { kind := none, written := "[ \\t]*->8-", modes := only "cut", steps := some [.popMode] },
    { kind := some "CUT", written := "[^\\n]*\\n", modes := only "cut" },
    { kind := some "DATE", written := "\\d\x7b4\x7d-\\d\x7b1,2\x7d-\\d\x7b1,2\x7d", modes := plan },
    { kind := some "INTEGER", written := "-?\\d+", modes := planAndArgs,
      steps := some [.toNumber] },
    { kind := some "STRING", written := "\"((?:[^\"\\\\\\n]|\\\\.)*)\"", modes := planAndArgs,
      steps := some [.group 1] },
    { kind := none, written := "\"", modes := plan, steps := some [.pushMode "dq"] },
    { kind := some "TEXT", written := "[^\"]+", modes := only "dq" },
    { kind := none, written := "\"", modes := only "dq", steps := some [.popMode] },
    { kind := none, written := "'", modes := plan, steps := some [.setMode "sq"] },
    { kind := some "TEXT", written := "[^']+", modes := only "sq" },
    { kind := none, written := "'", modes := only "sq", steps := some [.setMode "tjp"] },
    { kind := some "LITERAL", written := "\\(", modes := planAndArgs,
      steps := some [.pushMode "args"] },
    { kind := some "LITERAL", written := "\\)", modes := only "args", steps := some [.popMode] },
    { kind := none, written := "%(\\w+)", modes := planAndArgs,
      steps := some
        [.lookUp [("HOME", "home"), ("TWO", "a b"), ("EMPTY", ""), ("NEST", home)]] },
    { kind := some "ABSOLUTE_ID", written := "[a-zA-Z_]\\w*(?:\\.[a-zA-Z_]\\w*)+",
      modes := planAndArgs },
    { kind := some "ID_WITH_COLON", written := "[a-zA-Z_]\\w*:", modes := plan,
      steps := some [.strip 0 1] },
    { kind := some "ID", written := "[a-zA-Z_]\\w*", modes := planAndArgs },
    { kind := some "LITERAL", written := "<=|>=|!=|[=<>+*/,\x7b\x7d!~&|$-]",
      modes := planAndArgs } ]

end Entry

end GrammarEngine
