import GrammarEngine.Grammar.Basic

/-!
# What is said about a rule

While a rule is declared one thing after the other is said about it: it gets patterns, it is marked
as optional or as repeatable, and its latest pattern is documented. Here each of these is a piece of
data, so that it can be asked for by an action.

Nothing of what is said takes a pattern or a mark away. Patterns are added behind the others, marks
stay, and a remark replaces only what was remarked before.
-/

namespace GrammarEngine

/-- Something that is said about the latest pattern of a rule, for the manual or about
its support. -/
inductive Remark where
  /-- A keyword and a description. -/
  | doc (keyword text : Option String)
  /-- A description for the keyword there is. -/
  | describe (text : Option String)
  /-- Documentation of an argument. -/
  | arg (index : Int) (about : ArgDoc)
  /-- The last element that the manual shows. -/
  | lastShown (index : Int)
  /-- How far the pattern is supported, by the name of the level. -/
  | support (level : String)
  /-- What to see also. -/
  | also (words : List String)
  /-- An example, in a file and at a tag there. -/
  | sample (file tag : Option String)

/-- Something that is said about a rule. -/
inductive Clause (α : Type) where
  /-- It has another pattern. -/
  | pattern (elements : List Element) (action : Option α)
  /-- It may be left out. -/
  | optional
  /-- It may come several times. -/
  | repeatable
  /-- Its latest pattern is documented. -/
  | remark (remark : Remark)

variable {α : Type}

/-- The rule with a remark on its latest pattern, which has to be there. -/
def Remark.apply : Remark → Rule α → Except Fault (Rule α)
  | .doc keyword text => Rule.setDoc keyword text
  | .describe text => Rule.describe text
  | .arg index about => Rule.changeLast (Pattern.setArg index about)
  | .lastShown index => Rule.setLastShown index
  | .support level => Rule.changeLast fun p => do
    pure { p with support := ← SupportLevel.ofName level }
  | .also words => Rule.changeLast fun p => .ok { p with seeAlso := words }
  | .sample file tag =>
    Rule.changeLast fun p => .ok { p with exampleFile := file, exampleTag := tag }

namespace Clause

/-- The rule with something more said about it. -/
def apply : Clause α → Rule α → Except Fault (Rule α)
  | pattern elements action => fun r => do
    pure (r.addPattern (← Pattern.ofElements elements action))
  | optional => fun r => .ok { r with markedOptional := true }
  | repeatable => fun r => .ok { r with repeatable := true }
  | remark r => r.apply

/-- The action that is brought in. -/
def action : Clause α → Option α
  | pattern _ action => action
  | optional | repeatable | remark _ => none

end Clause

end GrammarEngine
