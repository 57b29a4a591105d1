import GrammarEngine.Parser.Script
import GrammarEngine.Proofs.Grammar.Vanishing

/-!
# Derivations and their values

What a grammar says about rows of tokens, with no word about tables, stacks or looking ahead. An
instance of a rule is given by one of its patterns with every element filled: a terminal by a token
that matches it, a reference by an instance of its rule, or by some in a row if that repeats. A
reference may also be left empty, but only to a rule that can match nothing, and never so that the
whole instance is empty.

The value of an instance comes with it: the action of the pattern makes it of the values of the
elements. A token has its own value, several instances in a row have a series, and an empty place
has nothing, or an empty series where the rule repeats.

Main result:

* `matches_of_transition?` — the transition a state has for a token is on a terminal that
  the token matches.
-/

namespace GrammarEngine

/-- `d.Matches kinds token`: a terminal stands for a token. The text of a token of one of the
`kinds` is a literal as well. -/
inductive Descriptor.Matches (kinds : List String) : Descriptor → Token → Prop
  | literal {token : Token} (hend : token.isEnd = false) (hkind : token.kind = Token.literalKind) :
      Matches kinds ⟨.literal, token.value.shown⟩ token
  | keyword {token : Token} {word : String}
      (hend : token.isEnd = false) (hkind : token.kind ∈ kinds)
      (hword : token.value = .text word) : Matches kinds ⟨.literal, word⟩ token
  | category {token : Token} (hend : token.isEnd = false) :
      Matches kinds ⟨.category, token.kind⟩ token
  | endOfInput {token : Token} {name : String} (hend : token.isEnd = true) :
      Matches kinds ⟨.endOfInput, name⟩ token

/-- Only the end of the input is normalized to its descriptor. -/
theorem Descriptor.matches_of_normalized {kinds : List String} {d : Descriptor} {token : Token}
    (h : d.normalized.Matches kinds token) : d.Matches kinds token := by
  obtain ⟨kind, name⟩ := d
  cases kind with
  | endOfInput =>
    cases h with
    | endOfInput hend => exact .endOfInput hend
  | reference | category | literal => exact h

/-- The transition of a state for a token is one of its transitions, and its terminal
matches the token. -/
theorem State.matches_of_transition? {s : State} {kinds : List String} {token : Token}
    {t : Transition}
    (h : s.transition? kinds token = some t) : t ∈ s.transitions ∧ t.token.Matches kinds token := by
  unfold transition? at h
  cases hend : token.isEnd with
  | true =>
    simp only [hend, if_true] at h
    obtain ⟨hmem, htoken⟩ := mem_of_find?_eq_some h
    rw [htoken]
    exact ⟨hmem, .endOfInput hend⟩
  | false =>
    simp only [hend, Bool.false_eq_true, if_false] at h
    split at h
    · next hkind =>
      obtain ⟨hmem, htoken⟩ := mem_of_find?_eq_some h
      rw [htoken]
      exact ⟨hmem, .literal hend hkind⟩
    · have hcategory : s.find? ⟨.category, token.kind⟩ = some t →
          t ∈ s.transitions ∧ t.token.Matches kinds token := by
        intro h
        obtain ⟨hmem, htoken⟩ := mem_of_find?_eq_some h
        rw [htoken]
        exact ⟨hmem, .category hend⟩
      -- the text of the token counts as a literal first
      cases hvalue : token.value with
      | text word =>
        simp only [hvalue] at h
        split at h
        · next hkind =>
          cases hword : s.find? ⟨.literal, word⟩ with
          | none =>
            rw [hword] at h
            exact hcategory h
          | some t' =>
            rw [hword] at h
            obtain rfl := Option.some.inj h
            obtain ⟨hmem, htoken⟩ := mem_of_find?_eq_some hword
            rw [htoken]
            exact ⟨hmem, .keyword hend hkind hvalue⟩
        · exact hcategory h
      | nothing | number | list | series =>
        simp only [hvalue] at h
        exact hcategory h

namespace Grammar

variable {σ : Type}

/-- What the action of a pattern makes of the values of its elements, if it only computes. -/
def Evaluates (action : Option (Action σ)) (values : List Value) (result : Value) : Prop :=
  match action with
  | none => result = .nothing
  | some action => action values = .done result

mutual

/-- `Instance g kinds r leaves v`: the tokens `leaves` are an instance of the rule `r`, with
the value `v`. -/
inductive Instance (g : Grammar (Action σ)) (kinds : List String) :
    Rule (Action σ) → List Token → Value → Prop
  | intro {r : Rule (Action σ)} {p : Pattern (Action σ)} {leaves : List Token} {values : List Value}
      {v : Value} (hp : p ∈ r.patterns) (hslots : Slots g kinds p.tokens leaves values)
      (hleaves : leaves ≠ []) (hv : Evaluates p.action values v) : Instance g kinds r leaves v

/-- Tokens fill a row of elements, from left to right. -/
inductive Slots (g : Grammar (Action σ)) (kinds : List String) :
    List Descriptor → List Token → List Value → Prop
  | nil : Slots g kinds [] [] []
  | cons {d : Descriptor} {rest : List Descriptor} {leaves leaves' : List Token} {v : Value}
      {values : List Value}
      (h : Slot g kinds d leaves v) (hrest : Slots g kinds rest leaves' values) :
      Slots g kinds (d :: rest) (leaves ++ leaves') (v :: values)

/-- Tokens fill one element. -/
inductive Slot (g : Grammar (Action σ)) (kinds : List String) :
    Descriptor → List Token → Value → Prop
  /-- A terminal is filled by a token. -/
  | terminal {d : Descriptor} {token : Token}
      (ht : d.isTerminal = true) (h : d.Matches kinds token) : Slot g kinds d [token] token.value
  /-- A reference is filled by one instance. -/
  | one {d : Descriptor} {s : Rule (Action σ)} {leaves : List Token} {v : Value}
      (ht : d.isTerminal = false) (hs : g.find? d.name = some s) (hrepeat : s.repeatable = false)
      (h : Instance g kinds s leaves v) : Slot g kinds d leaves v
  /-- A reference to a rule that repeats is filled by several. -/
  | many {d : Descriptor} {s : Rule (Action σ)} {leaves : List Token} {items : List Value}
      (ht : d.isTerminal = false) (hs : g.find? d.name = some s) (hrepeat : s.repeatable = true)
      (h : Instances g kinds s leaves items) : Slot g kinds d leaves (.series items)
  /-- A reference to a rule that can match nothing may be left empty. -/
  | missing {d : Descriptor} {s : Rule (Action σ)} (ht : d.isTerminal = false)
      (hs : g.find? d.name = some s) (hv : g.Vanishing s) :
      Slot g kinds d [] (if s.repeatable then .series [] else .nothing)

/-- One or more instances of a rule in a row, with their values collected. -/
inductive Instances (g : Grammar (Action σ)) (kinds : List String) :
    Rule (Action σ) → List Token → List Value → Prop
  | first {s : Rule (Action σ)} {leaves : List Token} {v : Value}
      (h : Instance g kinds s leaves v) : Instances g kinds s leaves (Series.push [] v)
  | more {s : Rule (Action σ)} {leaves leaves' : List Token} {items : List Value} {v : Value}
      (h : Instances g kinds s leaves items) (hlast : Instance g kinds s leaves' v) :
      Instances g kinds s (leaves ++ leaves') (Series.push items v)

end

/-- No action of a grammar does more than make a value of the values it is given, or give up. -/
def Pure (g : Grammar (Action σ)) : Prop :=
  ∀ r ∈ g.rules, ∀ p ∈ r.patterns, ∀ action, p.action = some action → ∀ values,
    (∃ v, action values = .done v) ∨ ∃ fault, action values = .fail fault

end Grammar

end GrammarEngine
