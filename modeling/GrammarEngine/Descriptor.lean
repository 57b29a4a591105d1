import GrammarEngine.Token

/-!
# Descriptors

A descriptor is one element of a pattern. Written out it begins with a mark that tells its kind:
`!name` refers to a rule, `$NAME` stands for any token of a kind, `_text` for exactly this text, and
a lone `.` for the end of the input.

Main result:

* `Descriptor.Kind.ofMark?_mark` — the mark tells the kind.
-/

namespace GrammarEngine

namespace Descriptor

/-- The kinds of descriptors. -/
inductive Kind where
  | reference
  | category
  | literal
  | endOfInput
deriving DecidableEq, Repr, Inhabited

/-- The mark that a written descriptor begins with. -/
def Kind.mark : Kind → Char
  | .reference => '!'
  | .category => '$'
  | .literal => '_'
  | .endOfInput => '.'

/-- The kind with a given mark. -/
def Kind.ofMark? (c : Char) : Option Kind :=
  [Kind.reference, .category, .literal, .endOfInput].find? (·.mark == c)

theorem Kind.ofMark?_mark (kind : Kind) : ofMark? kind.mark = some kind := by
  cases kind <;> rfl

end Descriptor

/-- One element of a pattern. -/
structure Descriptor where
  kind : Descriptor.Kind
  name : String
deriving DecidableEq, Repr, Inhabited

namespace Descriptor

/-- The descriptor of the end of the input. -/
def atEnd : Descriptor := ⟨.endOfInput, Token.endName⟩

/-- Whether a descriptor stands for a token rather than for a rule. -/
def isTerminal (d : Descriptor) : Bool := d.kind != .reference

/-- The written form of a descriptor. -/
def render (d : Descriptor) : String :=
  match d.kind with
  | .endOfInput => "."
  | kind => String.singleton kind.mark ++ d.name

/-- The form of a descriptor in the list of what was expected. -/
def expected (d : Descriptor) : String :=
  match d.kind with
  | .literal => "'" ++ d.name ++ "'"
  | .category => ":" ++ d.name
  | .endOfInput => ":eof"
  | .reference => "<" ++ d.name ++ ">"

/-- All descriptors of the end of the input count as the same one. -/
def normalized (d : Descriptor) : Descriptor :=
  match d.kind with
  | .endOfInput => atEnd
  | _ => d

theorem normalized_normalized (d : Descriptor) : d.normalized.normalized = d.normalized := by
  obtain ⟨kind, name⟩ := d
  cases kind <;> rfl

end Descriptor

/-- The written form of a row of descriptors. -/
def renderTokens (tokens : List Descriptor) : String :=
  " ".intercalate (tokens.map Descriptor.render)

end GrammarEngine
