import GrammarEngine.Text.Quoted

/-!
# Payloads

A diagnostic may carry a piece of structured data for whoever reads it. The library passes such data
on and never looks inside; only a diagnostic about the data itself writes it out.
-/

namespace GrammarEngine

/-- Structured data attached to a diagnostic. The fields of a record keep their order. -/
inductive Payload where
  | null
  | bool (b : Bool)
  | number (n : Int)
  | text (s : String)
  | list (items : List Payload)
  | record (fields : List (String × Payload))
deriving Inhabited

namespace Payload

mutual

/-- Data as it is written in a diagnostic. -/
def quoted : Payload → String
  | .null => "None"
  | .bool true => "True"
  | .bool false => "False"
  | .number n => toString n
  | .text s => Text.quoted s
  | .list items => "[" ++ ", ".intercalate (quotedItems items) ++ "]"
  | .record fields => "\x7b" ++ ", ".intercalate (quotedFields fields) ++ "\x7d"

/-- The written forms of several pieces of data. -/
def quotedItems : List Payload → List String
  | [] => []
  | item :: rest => item.quoted :: quotedItems rest

/-- The written forms of the fields of a record. -/
def quotedFields : List (String × Payload) → List String
  | [] => []
  | (name, item) :: rest => (Text.quoted name ++ ": " ++ item.quoted) :: quotedFields rest

end

end Payload

end GrammarEngine
