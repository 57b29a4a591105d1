import GrammarEngine.Grammar.Basic

/-!
# Optional rules

A rule can match nothing if it is marked as optional, or if all elements of all its patterns are
references to rules that can. A rule met again while it is being worked out counts as one that
cannot: whatever matches nothing by going around a cycle comes from somewhere else.

What has been worked out about a rule is kept in a memo, also when the question ends
with a fault later on.

The first argument of the functions below bounds the nesting of questions. No rule is worked out
inside itself, so the number of rules is enough.

Main results:

* `Memo.lookup_remember` — the memo tells what was put into it last.
* `ruleOptional_of_memo`, `ruleOptional_of_marked` — when a rule is not worked out at all.
-/

namespace GrammarEngine

/-- What has been worked out about rules: whether they can match nothing. -/
abbrev Memo := List (RuleId × Bool)

namespace Memo

/-- Puts an answer into the memo. -/
def remember (id : RuleId) (answer : Bool) (memo : Memo) : Memo := (id, answer) :: memo

/-- Forgets the answer about a rule. -/
def forget (id : RuleId) (memo : Memo) : Memo := memo.filter (·.1 != id)

theorem lookup_remember (id other : RuleId) (answer : Bool) (memo : Memo) :
    (remember id answer memo).lookup other =
      if other = id then some answer else memo.lookup other := by
  by_cases h : other = id
  · simp [remember, h]
  · have hb : (other == id) = false := by simpa using h
    simp [remember, List.lookup_cons, h, hb]

end Memo

namespace Grammar

variable {α : Type}

/-- The rule that an element of a pattern refers to. -/
def referenced (g : Grammar α) (name : String) (pattern : List Descriptor) :
    Except Fault (Rule α) :=
  match g.find? name with
  | some r => .ok r
  | none => .error (.grammar (.unknownInPattern name pattern))

/-- Whether all of some elements of a pattern refer to optional rules; `ask` answers for a rule. The
first one that does not settles the question. -/
def elementsOptional (g : Grammar α) (ask : Rule α → Run Memo Bool) (pattern : List Descriptor) :
    List Descriptor → Run Memo Bool
  | [] => pure true
  | d :: rest =>
    if d.isTerminal then pure false
    else do
      let r ← Run.ofExcept (g.referenced d.name pattern)
      if ← ask r then elementsOptional g ask pattern rest else pure false

/-- Whether all of some patterns are optional. -/
def patternsOptional (g : Grammar α) (ask : Rule α → Run Memo Bool) :
    List (Pattern α) → Run Memo Bool
  | [] => pure true
  | p :: rest => do
    if ← elementsOptional g ask p.tokens p.tokens then patternsOptional g ask rest else pure false

/-- Whether a rule can match nothing, while the rules named in `visiting` are being worked out. -/
def ruleOptional (g : Grammar α) : Nat → List String → Rule α → Run Memo Bool
  | 0, _, _ => Run.fail .exhausted
  | n + 1, visiting, r => do
    match (← Run.get).lookup r.id with
    | some answer => pure answer
    | none =>
      if r.markedOptional then
        Run.modify (Memo.remember r.id true)
        pure true
      -- This answer holds for the question at hand only, and is not kept.
      else if r.name ∈ visiting then pure false
      else
        let answer ← patternsOptional g (ruleOptional g n (r.name :: visiting)) r.patterns
        Run.modify (Memo.remember r.id answer)
        pure answer

/-- The nesting that is enough for every question about a grammar. -/
def depth (g : Grammar α) : Nat := g.rules.length + 2

/-- Whether a rule can match nothing. -/
def isOptional (g : Grammar α) (r : Rule α) : Run Memo Bool := g.ruleOptional g.depth [] r

/-- Whether a pattern can match nothing. -/
def isPatternOptional (g : Grammar α) (p : Pattern α) : Run Memo Bool :=
  g.elementsOptional g.isOptional p.tokens p.tokens

theorem ruleOptional_of_memo {g : Grammar α} {r : Rule α} {memo : Memo} {answer : Bool}
    (n : Nat) (visiting : List String) (h : memo.lookup r.id = some answer) :
    (g.ruleOptional (n + 1) visiting r).run memo = ⟨.ok answer, memo, []⟩ := by
  simp [ruleOptional, h]

theorem ruleOptional_of_marked {g : Grammar α} {r : Rule α} {memo : Memo}
    (n : Nat) (visiting : List String) (h : memo.lookup r.id = none)
    (hm : r.markedOptional = true) :
    (g.ruleOptional (n + 1) visiting r).run memo =
      ⟨.ok true, memo.remember r.id true, []⟩ := by
  simp [ruleOptional, h, hm, Except.map]

end Grammar

end GrammarEngine
