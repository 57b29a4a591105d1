import GrammarEngine.Grammar.Basic

/-!
# First terminals

The terminal that a pattern begins with: its first element, or if that is a reference, the first
terminal of the rule referred to. References are only followed into rules with a single pattern, and
not into a rule followed before. This serves documentation and diagnostics.

Main result:

* `firstOf?_terminal` — a pattern that begins with a terminal begins with nothing else.
-/

namespace GrammarEngine

namespace Grammar

variable {α : Type}

/-- The first terminal of a row of elements, if the rules named in `visited` were followed before.
The first argument bounds the number of rules followed. -/
def firstOf? (g : Grammar α) : Nat → List String → List Descriptor → Option Descriptor
  | _, _, [] => none
  | n, visited, d :: _ =>
    if d.isTerminal then some d
    else
      match n, g.find? d.name with
      | n + 1, some r =>
        match r.patterns with
        -- A rule with alternatives contributes nothing.
        | [p] => if r.name ∈ visited then none else firstOf? g n (r.name :: visited) p.tokens
        | _ => none
      | _, _ => none

/-- The first terminal of a pattern. No rule is followed twice, so the number of rules is enough. -/
def firstOfPattern? (g : Grammar α) (p : Pattern α) : Option Descriptor :=
  g.firstOf? (g.rules.length + 1) [] p.tokens

/-- The first terminals of a rule, each once. -/
def firstOfRule (g : Grammar α) (r : Rule α) : List Descriptor :=
  (r.patterns.filterMap fun p => g.firstOf? (g.rules.length + 1) [r.name] p.tokens).eraseDups

theorem firstOf?_terminal (g : Grammar α) (n : Nat) (visited : List String) {d : Descriptor}
    (rest : List Descriptor) (h : d.isTerminal = true) :
    g.firstOf? n visited (d :: rest) = some d := by
  unfold firstOf?
  simp [h]

end Grammar

/-- The written forms of some descriptors in alphabetical order. -/
def sortedForms (descriptors : List Descriptor) : List String :=
  (descriptors.map Descriptor.render).mergeSort fun a b => decide (a ≤ b)

end GrammarEngine
