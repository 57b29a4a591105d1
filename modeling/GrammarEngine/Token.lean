import GrammarEngine.Value

/-!
# Positions and tokens

A token is a piece of input: a kind, a value, and the position where it was found. Lines and columns
count from 1; 0 stands for an unknown one.
-/

namespace GrammarEngine

/-- A position in the input. -/
structure Position where
  file : String
  line : Int
  column : Int
deriving DecidableEq, Repr, Inhabited

namespace Position

/-- A position in front of a diagnostic: the file and the line. -/
def render (p : Position) : String := p.file ++ ":" ++ toString p.line ++ ":"

/-- A position with all its parts. -/
def quoted (p : Position) : String :=
  "SourceFileInfo(file_name=" ++ Text.quoted p.file ++ ", line=" ++ toString p.line ++
    ", column=" ++ toString p.column ++ ")"

end Position

/-- A token of the input. -/
structure Token where
  kind : String
  value : Value
  position : Option Position
deriving DecidableEq, Inhabited

namespace Token

/-- The kind of the token that marks the end of the input. -/
def endKind : String := "EOF"

/-- The kind of tokens that stand for their own text. -/
def literalKind : String := "LITERAL"

/-- The value of the token that marks the end of the input. -/
def endName : String := "<END>"

/-- The token that marks the end of the input. -/
def endOfInput (position : Option Position) : Token := ⟨endKind, .text endName, position⟩

/-- Whether a token marks the end of the input. -/
def isEnd (t : Token) : Bool := t.kind == endKind

/-- A token with all its parts. -/
def quoted (t : Token) : String :=
  "Token(kind=" ++ Text.quoted t.kind ++ ", value=" ++ t.value.quoted ++ ", position=" ++
    (t.position.map Position.quoted).getD "None" ++ ")"

theorem isEnd_endOfInput (position : Option Position) : (endOfInput position).isEnd = true := by
  simp [isEnd, endOfInput]

end Token

end GrammarEngine
