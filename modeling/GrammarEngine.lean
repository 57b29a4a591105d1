import GrammarEngine.Grammar.First
import GrammarEngine.Grammar.Synopsis
import GrammarEngine.Parser.Actions
import GrammarEngine.Parser.Drive
import GrammarEngine.Scanner.Presets
import GrammarEngine.Proofs.Grammar.Vanishing
import GrammarEngine.Proofs.Grammar.Paths
import GrammarEngine.Proofs.Grammar.Wiring
import GrammarEngine.Proofs.Grammar.Exactness
import GrammarEngine.Proofs.Grammar.Reordering
import GrammarEngine.Proofs.Parser.Derivation
import GrammarEngine.Proofs.Parser.Trees
import GrammarEngine.Proofs.Parser.Slots
import GrammarEngine.Proofs.Parser.Seats
import GrammarEngine.Proofs.Parser.Branches
import GrammarEngine.Proofs.Parser.Queue
import GrammarEngine.Proofs.Parser.Ledger
import GrammarEngine.Proofs.Parser.Stack
import GrammarEngine.Proofs.Parser.Soundness
import GrammarEngine.Proofs.Parser.Discipline
import GrammarEngine.Proofs.Parser.LeftCorner
import GrammarEngine.Proofs.Parser.Follow
import GrammarEngine.Proofs.Parser.Remainder
import GrammarEngine.Proofs.Scanner.Local
import GrammarEngine.Proofs.Scanner.Names
import GrammarEngine.Proofs.Scanner.Inputs
import GrammarEngine.Proofs.Inclusion.Statements
import GrammarEngine.Proofs.Inclusion.Agenda
import GrammarEngine.Proofs.Parser.Progress
import GrammarEngine.Proofs.Inclusion.Machine
import GrammarEngine.Proofs.Inclusion.Textual
import GrammarEngine.Proofs.Scanner.Rounds
import GrammarEngine.Proofs.Scanner.Plan
import GrammarEngine.Proofs.Scanner.Levels
import GrammarEngine.Proofs.Scanner.Termination
import GrammarEngine.Proofs.Scanner.Nesting
import GrammarEngine.Proofs.Parser.Completeness
import GrammarEngine.Proofs.Inclusion.Walks
import GrammarEngine.Proofs.Parser.Failure
import GrammarEngine.Proofs.Parser.Stability
import GrammarEngine.Proofs.Inclusion.Recursion
import GrammarEngine.Proofs.Regex.Forward
import GrammarEngine.Proofs.Scanner.Reading
import GrammarEngine.Proofs.Scanner.Transcript
import GrammarEngine.Proofs.Scanner.Feed
import GrammarEngine.Proofs.Scanner.Order
import GrammarEngine.Proofs.Scanner.Reopening
import GrammarEngine.Proofs.Parser.Tameness
import GrammarEngine.Proofs.Parser.PushBack
import GrammarEngine.Proofs.Laws
import GrammarEngine.Proofs.Parser.Licence
import GrammarEngine.Proofs.Parser.Termination
import GrammarEngine.Proofs.Parser.Currency
import GrammarEngine.Proofs.Telling
import GrammarEngine.Proofs.Scanner.Candour
import GrammarEngine.Proofs.Parser.Reports
import GrammarEngine.Proofs.Macro.Substitution
import GrammarEngine.Proofs.Grammar.Questions
import GrammarEngine.Proofs.Parser.Wear
import GrammarEngine.Proofs.Grammar.Documentation
import GrammarEngine.Proofs.Parser.Reset
import GrammarEngine.Proofs.Scanner.Weaving
import GrammarEngine.Proofs.Scanner.LineNumbers
import GrammarEngine.Proofs.Scanner.Listed
import GrammarEngine.Proofs.Scanner.Splices
import GrammarEngine.Proofs.Macro.Written
import GrammarEngine.Proofs.Scanner.Asking
import GrammarEngine.Proofs.Scanner.WrittenCalls
import GrammarEngine.Proofs.Scanner.Escapes
import GrammarEngine.Proofs.Scanner.Departures
import GrammarEngine.Proofs.Scanner.Unterminated
import GrammarEngine.Proofs.Scanner.Confined
import GrammarEngine.Proofs.Scanner.Changes
import GrammarEngine.Proofs.Scanner.Refusals
import GrammarEngine.Proofs.Scanner.Closing
import GrammarEngine.Proofs.Scanner.Solitary
import GrammarEngine.Proofs.Scanner.Desk
import GrammarEngine.Proofs.Scanner.Filing
import GrammarEngine.Proofs.Parser.Support
import GrammarEngine.Proofs.Grammar.StartingOver
import GrammarEngine.Proofs.Grammar.FirstTerminals
import GrammarEngine.Proofs.Grammar.Rendering
import GrammarEngine.Proofs.Parser.Looking
import GrammarEngine.Proofs.Parser.Places
import GrammarEngine.Proofs.Parser.Sightings
