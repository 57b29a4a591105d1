import GrammarEngine.Text.Quoted

/-!
# Values

The value of a token or of a piece of grammar is nothing, a number, a text, a list, or a series. A
series is what a repeated rule collects: a series added to a series is spliced in, a list added to
one stays a list.

Main results:

* `Value.same_iff` — equality of values can be decided.
* `Series.push_series`, `Series.push_list` — splicing, and its absence.
-/

namespace GrammarEngine

/-- The value of a token or of a piece of grammar. -/
inductive Value where
  | nothing
  | number (n : Int)
  | text (s : String)
  | list (items : List Value)
  | series (items : List Value)
deriving Inhabited

namespace Value

/-- Whether there is no value. -/
def isNothing : Value → Bool
  | .nothing => true
  | _ => false

/-- The text of a value, if it is one. -/
def text? : Value → Option String
  | .text s => some s
  | _ => none

mutual

/-- A value as it is written in a diagnostic, with texts between quotes. -/
def quoted : Value → String
  | .nothing => "None"
  | .number n => toString n
  | .text s => Text.quoted s
  | .list items | .series items => "[" ++ ", ".intercalate (quotedItems items) ++ "]"

/-- The written forms of several values. -/
def quotedItems : List Value → List String
  | [] => []
  | item :: rest => item.quoted :: quotedItems rest

end

mutual

/-- Whether two values are the same. -/
def same : Value → Value → Bool
  | .nothing, .nothing => true
  | .number m, .number n => m == n
  | .text s, .text t => s == t
  | .list items, .list others | .series items, .series others => sameItems items others
  | _, _ => false

/-- Whether two rows of values are the same. -/
def sameItems : List Value → List Value → Bool
  | [], [] => true
  | v :: items, w :: others => v.same w && sameItems items others
  | _, _ => false

end

mutual

theorem same_iff : ∀ v w : Value, v.same w = true ↔ v = w
  | .nothing, w | .number _, w | .text _, w => by cases w <;> simp [same]
  | .list items, w | .series items, w => by cases w <;> simp [same, sameItems_iff items]

theorem sameItems_iff : ∀ items others : List Value, sameItems items others = true ↔ items = others
  | [], others => by cases others <;> simp [sameItems]
  | v :: items, others => by cases others <;> simp [sameItems, same_iff v, sameItems_iff items]

end

instance : DecidableEq Value := fun v w => decidable_of_iff _ (v.same_iff w)

/-- A value as it stands in running text: a text as it is, and any other value as it is written. -/
def shown : Value → String
  | .text s => s
  | v => v.quoted

end Value

/-- Adds a value to a series. -/
def Series.push (items : List Value) (value : Value) : List Value :=
  match value with
  | .series more => items ++ more
  | other => items ++ [other]

theorem Series.push_series (items more : List Value) :
    Series.push items (.series more) = items ++ more := rfl

theorem Series.push_list (items more : List Value) :
    Series.push items (.list more) = items ++ [.list more] := rfl

end GrammarEngine
