/-!
# Regular expressions

A regular expression describes pieces of a line. Besides concatenation, alternatives and repetition
it has capturing groups, tests for the place it stands at, and tests for the text ahead of and
behind that place.

This is a fragment of the expressions that are in use elsewhere, the one that the patterns of tokens
are written in. It has no references back to a group, no conditions on whether a group has matched,
and no groups or repetitions that are never gone back into. The text that is tested behind a place
has a fixed width. There are two options, for a whole expression: letters match without regard to
case, and the dot matches a line feed too. There is no option for lines within the text, so
`lineStart` is the start of the whole text, and none for ASCII characters only. What is shown here
of all expressions is shown of those of the fragment.
-/

namespace GrammarEngine.Regex

/-- One member of a class of characters. The last three are the decimal digits, the word characters
and the blanks, or all others. -/
inductive Member where
  | char (c : Char)
  | range (first last : Char)
  | digit (positive : Bool)
  | word (positive : Bool)
  | blank (positive : Bool)
deriving DecidableEq, Repr

/-- An expression. A repetition without `most` is unbounded; a reluctant one tries fewer rounds
first. The text that `behind` tests has a fixed width. -/
inductive Node where
  | empty
  | char (c : Char)
  | anyChar
  | oneOf (negated : Bool) (members : List Member)
  | seq (first second : Node)
  | alt (first second : Node)
  | group (number : Nat) (body : Node)
  | repeated (least : Nat) (most : Option Nat) (reluctant : Bool) (body : Node)
  | lineStart
  | lineEnd
  | textEnd
  | wordEdge (positive : Bool)
  | ahead (positive : Bool) (body : Node)
  | behind (positive : Bool) (width : Nat) (body : Node)
deriving DecidableEq, Repr

/-- The number of characters that every match of an expression has, if all have the same. -/
def Node.width? : Node → Option Nat
  | .empty | .lineStart | .lineEnd | .textEnd | .wordEdge _ | .ahead .. | .behind .. => some 0
  | .char _ | .anyChar | .oneOf .. => some 1
  | .seq a b => do pure ((← a.width?) + (← b.width?))
  | .alt a b => do
    let m ← a.width?
    let n ← b.width?
    if m = n then some m else none
  | .group _ body => body.width?
  | .repeated least most _ body => do
    let n ← body.width?
    if most = some least then some (least * n) else none

/-- Options of an expression: letters match without regard to case; the dot matches a
line feed too. -/
structure Flags where
  ignoreCase : Bool := false
  dotAll : Bool := false
deriving DecidableEq, Repr

end GrammarEngine.Regex

namespace GrammarEngine

/-- An expression with its options and the number of its capturing groups. -/
structure Regex where
  node : Regex.Node
  groups : Nat
  flags : Regex.Flags
deriving DecidableEq, Repr

end GrammarEngine
