import GrammarEngine.Descriptor

/-!
# States and transitions

A state is a position in a grammar: either the entry of a rule, where nothing of it has been read
yet, or the place behind one token of one of its patterns. A transition says which state a token
leads to, and through which references it got there without consuming anything.

A rule that is declared anew under an old name is a different rule, so rules are identified by their
name together with the number of their declaration.
-/

namespace GrammarEngine

/-- The identity of a rule: its name, and which declaration of that name it is. -/
structure RuleId where
  name : String
  stamp : Nat
deriving DecidableEq, Repr, Inhabited

/-- The identity of a state: its rule, its pattern or none for the entry, and the index of the
token just read. -/
structure Key where
  rule : RuleId
  pattern : Option Nat
  index : Nat
deriving DecidableEq, Repr, Inhabited

/-- A state in a dump. -/
def Key.render (k : Key) : String :=
  match k.pattern with
  | none => k.rule.name ++ "[entry]"
  | some pattern => k.rule.name ++ "[" ++ toString pattern ++ ":" ++ toString k.index ++ "]"

/-- Where a token leads. `skipped` are the references passed through on the way, the outermost
first; `loopBack` says that the rule of the state starts over. -/
structure Transition where
  token : Descriptor
  target : Key
  skipped : List Key
  loopBack : Bool
deriving DecidableEq, Repr, Inhabited

/-- A transition in a dump. -/
def Transition.render (t : Transition) : String :=
  let via := if t.skipped.isEmpty then "" else
    " via [" ++ ", ".intercalate (t.skipped.map Key.render) ++ "]"
  t.token.render ++ " -> " ++ t.target.render ++ via ++ (if t.loopBack then " (loop back)" else "")

/-- A state with the tokens of its pattern (none for an entry), and its transitions in the order
they were found. A reducible state may end its pattern; `repeats` says whether its rule repeats. -/
structure State where
  key : Key
  tokens : List Descriptor
  reducible : Bool
  repeats : Bool
  transitions : List Transition
deriving DecidableEq, Repr, Inhabited

namespace State

/-- The pattern of a state in a dump, with a star behind the token just read. -/
def renderPattern (s : State) : String :=
  " ".intercalate
    ((s.tokens.take (s.key.index + 1)).map Descriptor.render ++ "*" ::
      (s.tokens.drop (s.key.index + 1)).map Descriptor.render)

/-- A state in full. -/
def dump (s : State) : String :=
  let head := "State: " ++ s.key.render ++ (if s.reducible then " (reduce)" else " (no reduce)")
  let pattern := if s.key.pattern.isNone then [] else ["  Pattern: " ++ s.renderPattern]
  "\n".intercalate (head :: pattern ++ s.transitions.map ("  " ++ ·.render))

/-- The transition on a descriptor. -/
def find? (s : State) (d : Descriptor) : Option Transition :=
  s.transitions.find? (·.token == d)

/-- The transition for a token of the input. A literal wins over a category: the text of a token of
one of the `keywordKinds` is looked up as a literal first. -/
def transition? (s : State) (keywordKinds : List String) (t : Token) : Option Transition :=
  if t.isEnd then s.find? .atEnd
  else if t.kind = Token.literalKind then s.find? ⟨.literal, t.value.shown⟩
  else
    let keyword := match t.value with
      | .text word => if t.kind ∈ keywordKinds then s.find? ⟨.literal, word⟩ else none
      | _ => none
    keyword.orElse fun _ => s.find? ⟨.category, t.kind⟩

/-- What could come next, in alphabetical order. -/
def expected (s : State) : List String :=
  (s.transitions.map (·.token.expected)).mergeSort fun a b => decide (a ≤ b)

/-- The transition leaves the state by its descriptor. -/
theorem mem_of_find?_eq_some {s : State} {d : Descriptor} {t : Transition}
    (h : s.find? d = some t) : t ∈ s.transitions ∧ t.token = d := by
  have hp := List.find?_some h
  exact ⟨List.mem_of_find?_eq_some h, by simpa using hp⟩

end State

/-- The states of a grammar, in the order of its rules and patterns. -/
abbrev Table := List State

/-- The state with a given identity. -/
def Table.find? (table : Table) (key : Key) : Option State := List.find? (·.key == key) table

theorem Table.key_of_find?_eq_some {table : Table} {key : Key} {s : State}
    (h : table.find? key = some s) : s.key = key := by
  simpa using List.find?_some h

end GrammarEngine
