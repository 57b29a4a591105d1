import GrammarEngine.Run
import GrammarEngine.Text.Decimal

/-!
# Text macros

A macro is a named text. In that text a number in braces after a dollar sign is a placeholder: 0
stands for the name of the macro, 1 for the first argument of the call, and so on; a placeholder
without an argument stays as it is. A second dollar sign in front of a dollar sign and a brace takes
their meaning away, and is itself dropped in the end.

Main results:

* `MacroTable.get?_add` — a macro replaces the one of the same name, and no other.
* `Template.fill_of_no_dollar` — text without a dollar sign is left alone.
-/

namespace GrammarEngine

/-- A named text, with the place of its definition. -/
structure Macro where
  name : String
  value : String
  definedAt : Option Position
deriving DecidableEq, Repr, Inhabited

/-! ## Templates -/

namespace Template

/-- The digits of the placeholder that a text begins with. -/
def placeholder? (text : List Char) : Option (List Char) :=
  match text with
  | '$' :: '{' :: rest =>
    let digits := rest.takeWhile Text.isDecimal
    match rest.dropWhile Text.isDecimal with
    | '}' :: _ => if digits.isEmpty then none else some digits
    | _ => none
  | _ => none

/-- Replaces the placeholders of a text by `values`, from left to right. `escaped` says that a
dollar sign stands in front, and `skip` characters belong to a placeholder replaced before. There is
no result if a number is too long to be read. -/
def fill (values : List (List Char)) : Bool → Nat → List Char → Option (List Char)
  | _, _, [] => some []
  -- The text of an argument is not looked at again, so placeholders in it stay as they are.
  | _, skip + 1, c :: rest => fill values (c == '$') skip rest
  | escaped, 0, c :: rest =>
    match if escaped then none else placeholder? (c :: rest) with
    | none => (fill values (c == '$') 0 rest).map (c :: ·)
    | some digits => do
      let index ← Text.Numeral.ofDecimals? digits
      let written := '$' :: '{' :: digits ++ ['}']
      let tail ← fill values (c == '$') (digits.length + 2) rest
      pure ((values[index]?).getD written ++ tail)

/-- Drops the first of two dollar signs in front of a brace. -/
def unescape : List Char → List Char
  | '$' :: '$' :: '{' :: rest => '$' :: '{' :: unescape rest
  | c :: rest => c :: unescape rest
  | [] => []

/-- The text that a macro expands to. -/
def expand (value : List Char) (values : List (List Char)) : Option (List Char) :=
  (fill values false 0 value).map unescape

theorem fill_of_no_dollar (values : List (List Char)) {text : List Char} (h : '$' ∉ text) :
    fill values false 0 text = some text := by
  induction text with
  | nil => rfl
  | cons c rest ih =>
    have hc : c ≠ '$' := fun hc => h (hc ▸ List.mem_cons_self)
    have hp : placeholder? (c :: rest) = none := by
      unfold placeholder?
      split
      · next heq => exact absurd (List.cons.inj heq).1 hc
      · rfl
    have hb : (c == '$') = false := by simpa using hc
    simp [fill, hp, hb, ih fun hm => h (List.mem_cons_of_mem _ hm)]

end Template

/-! ## Tables -/

/-- A table of macros. No two of them have the same name. -/
structure MacroTable where
  macros : List Macro := []
deriving Inhabited

/-- What becomes of a call: the macro is undefined, or it may be missing and is, or it
is expanded. -/
inductive Resolution where
  | undefined
  | missing
  | expanded (definition : Macro) (text : String)
deriving DecidableEq, Repr

namespace MacroTable

/-- The macro of a name. -/
def get? (table : MacroTable) (name : String) : Option Macro :=
  table.macros.find? (·.name == name)

/-- Adds a macro, in place of one of the same name. -/
def add (table : MacroTable) (m : Macro) : MacroTable :=
  ⟨m :: table.macros.filter (·.name != m.name)⟩

/-- Whether there is a macro of a name. -/
def contains (table : MacroTable) (name : String) : Bool := (table.get? name).isSome

/-- The number of macros. -/
def size (table : MacroTable) : Nat := table.macros.length

/-- Resolves a call. Its first argument is the name as it is written in the call; a question mark in
front of it says that the macro may be missing. -/
def resolve {σ : Type} (table : MacroTable) (args : List String) (position : Option Position) :
    Run σ Resolution := do
  let written ← Run.orFail args.head? .outOfRange
  let (mayBeMissing, name) := match written.toList with
    | '?' :: rest => (true, String.ofList rest)
    | _ => (false, written)
  match table.get? name with
  | none => pure (if mayBeMissing then .missing else .undefined)
  | some definition =>
    let values := (name :: args.tail).map String.toList
    let text ← Run.orFail (Template.expand definition.value.toList values) .badNumeral
    Run.emit (.macroExpanded position name (String.ofList text))
    pure (.expanded definition (String.ofList text))

theorem get?_add (table : MacroTable) (m : Macro) (name : String) :
    (table.add m).get? name = if m.name = name then some m else table.get? name := by
  unfold add get?
  by_cases h : m.name = name
  · simp [h]
  · have hb : (m.name == name) = false := by simpa using h
    simp only [List.find?_cons, hb, if_neg h, List.find?_filter]
    congr 1
    funext x
    by_cases hx : x.name = name
    · simp [hx, Ne.symm h]
    · simp [hx]

end MacroTable

end GrammarEngine
