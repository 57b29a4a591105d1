import GrammarEngine.Grammar.Clause

/-!
# Semantic actions

When a pattern is complete its action is called with the values of its elements, and the value of
the pattern is what the action makes of them. An action may do more: look where the pattern began,
report something, work on the source of tokens, and change the grammar while the parse goes on.

What an action does is a tree of requests, like a routine of a scanner: a statement about all
actions is one about all trees.
-/

namespace GrammarEngine

/-- What an action does. Each request but the last two goes on with a rest; a fault in a request
ends the action. -/
inductive Script (σ : Type) where
  /-- Works on the source of tokens. -/
  | source (work : Run σ Value) (rest : Value → Script σ)
  /-- Asks for the position where the pattern began. -/
  | here (rest : Option Position → Script σ)
  /-- Asks for the values of the pattern and the positions of its elements. -/
  | slots (rest : List Value → List (Option Position) → Script σ)
  /-- Reports an error. -/
  | error (id text : String) (position : Option Position) (data : Payload)
  /-- Reports a warning. -/
  | warning (id text : String) (position : Option Position) (data : Payload) (rest : Script σ)
  /-- Accepts only some kinds of tokens from now on. -/
  | limit (kinds : List String) (rest : Script σ)
  /-- Says something more about a rule of the grammar, and does not tell the table. -/
  | amend (rule : String) (clause : Clause (List Value → Script σ)) (rest : Script σ)
  /-- Takes a rule out of the grammar. -/
  | dropRule (rule : String) (rest : Script σ)
  /-- Declares a rule: its patterns, its marks and its documentation. -/
  | declareRule (rule : String) (clauses : List (Clause (List Value → Script σ))) (rest : Script σ)
  /-- Brings the tables up to date with the grammar. -/
  | rebuild (rest : Script σ)
  /-- Gives up. -/
  | fail (fault : Fault)
  /-- Ends with the value of the pattern. -/
  | done (value : Value)

/-- What makes the value of a pattern out of the values of its elements. -/
abbrev Action (σ : Type) := List Value → Script σ

end GrammarEngine
