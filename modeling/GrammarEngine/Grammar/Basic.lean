import GrammarEngine.Run
import GrammarEngine.Descriptor.Notation

/-!
# Grammars

A grammar is a row of rules with different names. A rule has alternative patterns, and may be marked
as optional or as repeatable. A pattern is a row of descriptors with an action for its values, and
with documentation: a keyword, a description, notes on its arguments, how far it is supported, what
to see also, an example, and how many of its elements the manual shows.

The type `α` of actions is left open: the analyses of a grammar do not look at them.

Main results:

* `Grammar.mem_put_iff`, `Grammar.find?_put` — a rule replaces the one of the same name,
  and no other.
* `Grammar.name_of_find?_eq_some` — a rule is found under its own name.
-/

namespace GrammarEngine

/-- The element of a list at an index; negative indices count from the end. -/
def elementAt {β : Type} (items : List β) (index : Int) : Except Fault β :=
  let place := if 0 ≤ index then index else items.length + index
  if place < 0 then .error .outOfRange
  else
    match items[place.toNat]? with
    | some item => .ok item
    | none => .error .outOfRange

/-- How far a pattern is supported. -/
inductive SupportLevel where
  | experimental
  | beta
  | supported
  | deprecated
  | removed
deriving DecidableEq, Repr, Inhabited

namespace SupportLevel

/-- The name of a level. -/
def name : SupportLevel → String
  | .experimental => "experimental"
  | .beta => "beta"
  | .supported => "supported"
  | .deprecated => "deprecated"
  | .removed => "removed"

/-- The level of a name. -/
def ofName (name : String) : Except Fault SupportLevel :=
  match [experimental, beta, supported, deprecated, removed].find? (·.name == name) with
  | some level => .ok level
  | none => .error (.grammar (.supportLevel name))

end SupportLevel

/-- Documentation of an argument. Without a name the text of the element stands for it. A documented
pattern that an argument refers to is given by its elements. -/
structure ArgDoc where
  name : Option String
  text : Option String := none
  pattern : Option (List Descriptor) := none
  typeSpec : Option String := none
deriving DecidableEq, Repr, Inhabited

/-- One alternative of a rule. `lastShown` is the index of the last element that the
manual shows. -/
structure Pattern (α : Type) where
  tokens : List Descriptor
  action : Option α
  keyword : Option String := none
  doc : Option String := none
  args : List (Option ArgDoc)
  support : SupportLevel := .supported
  seeAlso : List String := []
  exampleFile : Option String := none
  exampleTag : Option String := none
  lastShown : Int

/-- An element of a pattern as it is given: written out, or as a descriptor. -/
inductive Element where
  | written (raw : Payload)
  | direct (d : Descriptor)

/-- The descriptor that an element stands for. -/
def Element.read : Element → Except Fault Descriptor
  | .written raw => Descriptor.ofPayload raw
  | .direct d => .ok d

namespace Pattern

variable {α : Type}

/-- A pattern without documentation. -/
def ofTokens (tokens : List Descriptor) (action : Option α) : Pattern α :=
  { tokens := tokens
    action := action
    args := tokens.map fun _ => none
    lastShown := tokens.length - 1 }

/-- The pattern that is given by its elements. -/
def ofElements (elements : List Element) (action : Option α) : Except Fault (Pattern α) := do
  pure (ofTokens (← elements.mapM Element.read) action)

/-- The written form of a pattern. -/
def render (p : Pattern α) : String := renderTokens p.tokens

/-- Documents an argument. -/
def setArg (index : Int) (doc : ArgDoc) (p : Pattern α) : Except Fault (Pattern α) :=
  if 0 ≤ index ∧ index < p.tokens.length then .ok { p with args := p.args.set index.toNat doc }
  else .error (.grammar (.argumentIndex index p.tokens))

end Pattern

/-- A named set of alternatives. -/
structure Rule (α : Type) where
  id : RuleId
  patterns : List (Pattern α) := []
  markedOptional : Bool := false
  repeatable : Bool := false

namespace Rule

variable {α : Type}

/-- The name of a rule. -/
def name (r : Rule α) : String := r.id.name

/-- Adds an alternative. -/
def addPattern (p : Pattern α) (r : Rule α) : Rule α := { r with patterns := r.patterns ++ [p] }

/-- Changes the latest alternative, which has to be there. -/
def changeLast (f : Pattern α → Except Fault (Pattern α)) (r : Rule α) : Except Fault (Rule α) :=
  match r.patterns.getLast? with
  | none => .error (.grammar (.noPatternYet r.name))
  | some p => do pure { r with patterns := r.patterns.dropLast ++ [← f p] }

/-- Gives the latest alternative a keyword and a description. -/
def setDoc (keyword doc : Option String) : Rule α → Except Fault (Rule α) :=
  changeLast fun p => .ok { p with keyword := keyword, doc := doc }

/-- Gives the latest alternative a description, if it has a keyword. -/
def describe (doc : Option String) (r : Rule α) : Except Fault (Rule α) :=
  r.changeLast fun p =>
    if p.keyword.isNone then .error (.grammar (.noKeyword r.name)) else .ok { p with doc := doc }

/-- Says up to which index the manual shows the elements of the latest alternative. -/
def setLastShown (index : Int) : Rule α → Except Fault (Rule α) :=
  changeLast fun p =>
    if p.tokens.length ≤ index then .error (.grammar (.tokenIndex index p.tokens))
    else .ok { p with lastShown := index }

/-- A rule in full. -/
def dump (r : Rule α) : String :=
  let flags := (if r.markedOptional then ["[optional]"] else []) ++
    (if r.repeatable then ["[repeatable]"] else [])
  "\n".intercalate
    (Text.trimBlanksRight ("Rule: " ++ r.name ++ " " ++ " ".intercalate flags) ::
      r.patterns.map fun p => "  Pattern: \"" ++ p.render ++ "\"")

theorem name_addPattern (p : Pattern α) (r : Rule α) : (r.addPattern p).name = r.name := rfl

end Rule

/-- Rules with different names, in the order of their declaration. -/
structure Grammar (α : Type) where
  rules : List (Rule α) := []
  distinct : (rules.map Rule.name).Nodup := by simp

namespace Grammar

variable {α : Type}

instance : Inhabited (Grammar α) := ⟨{}⟩

/-- The rule of a name. -/
def find? (g : Grammar α) (name : String) : Option (Rule α) := g.rules.find? (·.name == name)

/-- The rule of a given identity. -/
def byId? (g : Grammar α) (id : RuleId) : Option (Rule α) := g.rules.find? (·.id == id)

theorem name_of_find?_eq_some {g : Grammar α} {name : String} {r : Rule α}
    (h : g.find? name = some r) : r.name = name := by
  simpa using List.find?_some h

/-- The rules with one of them replaced. -/
def replaced (r : Rule α) (rules : List (Rule α)) : List (Rule α) :=
  rules.map fun other => if other.name = r.name then r else other

theorem names_replaced (r : Rule α) (rules : List (Rule α)) :
    (replaced r rules).map Rule.name = rules.map Rule.name := by
  simp only [replaced, List.map_map]
  refine List.map_congr_left fun other _ => ?_
  by_cases h : other.name = r.name <;> simp [h]

/-- Puts a rule in the place of the one of the same name, or behind all others if there is none. -/
def put (g : Grammar α) (r : Rule α) : Grammar α :=
  if h : r.name ∈ g.rules.map Rule.name then
    ⟨replaced r g.rules, by rw [names_replaced]; exact g.distinct⟩
  else
    ⟨g.rules ++ [r], by
      rw [List.map_append, List.nodup_append]
      refine ⟨g.distinct, by simp, ?_⟩
      intro a ha b hb
      simp only [List.map_cons, List.map_nil, List.mem_singleton] at hb
      rintro rfl
      exact h (hb ▸ ha)⟩

/-- After a rule was put in, the rules are that one and all others of other names. -/
theorem mem_put_iff {g : Grammar α} {r s : Rule α} :
    s ∈ (g.put r).rules ↔ s = r ∨ (s ∈ g.rules ∧ s.name ≠ r.name) := by
  unfold put
  split
  · next hname =>
    obtain ⟨old, hold, hsame⟩ := List.mem_map.mp hname
    simp only [replaced, List.mem_map]
    constructor
    · rintro ⟨other, hother, rfl⟩
      split
      · exact .inl rfl
      · next hne => exact .inr ⟨hother, hne⟩
    · rintro (rfl | ⟨hs, hne⟩)
      · exact ⟨old, hold, if_pos hsame⟩
      · exact ⟨s, hs, if_neg hne⟩
  · next hname =>
    simp only [List.mem_append, List.mem_singleton]
    constructor
    · rintro (hs | rfl)
      · exact .inr ⟨hs, fun heq => hname (List.mem_map.mpr ⟨s, hs, heq⟩)⟩
      · exact .inl rfl
    · rintro (rfl | ⟨hs, -⟩)
      · exact .inr rfl
      · exact .inl hs

/-- Takes out the rule of a name. -/
def erase (g : Grammar α) (name : String) : Grammar α :=
  ⟨g.rules.filter (·.name != name),
    (List.filter_sublist.map Rule.name).nodup g.distinct⟩

private theorem find?_replaced (r : Rule α) (rules : List (Rule α)) (name : String) :
    (replaced r rules).find? (·.name == name) =
      if r.name = name ∧ r.name ∈ rules.map Rule.name then some r
      else rules.find? (·.name == name) := by
  induction rules with
  | nil => simp [replaced]
  | cons x xs ih =>
    simp only [replaced, List.map_cons, List.find?_cons] at ih ⊢
    by_cases hx : x.name = r.name
    · by_cases hr : r.name = name
      · simp [hx, hr]
      · have hb : (r.name == name) = false := by simpa using hr
        simp [hx, hr, hb, ih]
    · by_cases hn : x.name = name
      · have hr : ¬ r.name = name := fun hr => hx (hn.trans hr.symm)
        simp [hn, hr, Ne.symm hr]
      · have hb : (x.name == name) = false := by simpa using hn
        simp [hx, hb, ih, Ne.symm hx]

theorem find?_put (g : Grammar α) (r : Rule α) (name : String) :
    (g.put r).find? name = if r.name = name then some r else g.find? name := by
  unfold put find?
  split
  · next hm => simp only [find?_replaced, hm, and_true]
  · next hm =>
    simp only [List.find?_append]
    by_cases hr : r.name = name
    · have hnone : g.rules.find? (·.name == name) = none := by
        rw [List.find?_eq_none]
        intro x hx hxn
        exact hm (List.mem_map.2 ⟨x, hx, (by simpa using hxn : x.name = name).trans hr.symm⟩)
      simp [hr, hnone]
    · have hb : (r.name == name) = false := by simpa using hr
      simp [hr, hb]

end Grammar

end GrammarEngine
