import GrammarEngine.Grammar.Optional

/-!
# Compiling a grammar

Every position of every pattern becomes a state, and every rule has an entry state. The transitions
of a state are found by following its pattern: a terminal makes a transition to the state behind it,
and a reference leads into the patterns of the rule referred to, with the reference kept as skipped.
If that rule is optional the pattern is followed beyond the reference as well. Where a pattern of a
repeatable rule can end, the rule may start over: those transitions loop back.

No reference is followed into itself again, so every way through the grammar ends. Two ways on the
same token from one state make the grammar ambiguous, and it is refused.

Main results:

* `State.addTransition_eq_ok_iff` — a transition is refused exactly if the token is taken.
-/

namespace GrammarEngine

/-- Adds a transition to a state, unless there is one on the same token. -/
def State.addTransition (s : State) (t : Transition) : Except Fault State :=
  match s.find? t.token with
  | some existing => .error (.ambiguous s existing t)
  | none => .ok { s with transitions := s.transitions ++ [t] }

theorem State.addTransition_eq_ok_iff (s s' : State) (t : Transition) :
    s.addTransition t = .ok s' ↔
      s.find? t.token = none ∧ s' = { s with transitions := s.transitions ++ [t] } := by
  unfold addTransition
  cases s.find? t.token <;> simp [eq_comm]

namespace Grammar

variable {α : Type}

/-! ## States -/

/-- How many of some elements, given from the last one on, refer to optional rules before another
element comes. -/
def trailingOptional (g : Grammar α) (pattern : List Descriptor) : List Descriptor → Run Memo Nat
  | [] => pure 0
  | d :: rest => do
    if d.isTerminal then pure 0
    else
      let r ← Run.ofExcept (g.referenced d.name pattern)
      if ← g.isOptional r then
        let n ← trailingOptional g pattern rest
        pure (n + 1)
      else pure 0

/-- The states of a pattern. From the last element on that has to be there, a state may
end the pattern. -/
def patternStates (g : Grammar α) (r : Rule α) (index : Nat) (p : Pattern α) :
    Run Memo (List State) := do
  let optional ← g.trailingOptional p.tokens p.tokens.tail.reverse
  pure ((List.range p.tokens.length).map fun i =>
    { key := ⟨r.id, some index, i⟩
      tokens := p.tokens
      reducible := p.tokens.length ≤ i + 1 + optional
      repeats := r.repeatable
      transitions := [] })

/-- The states of the patterns from a given index on. -/
def patternsStates (g : Grammar α) (r : Rule α) : Nat → List (Pattern α) → Run Memo (List State)
  | _, [] => pure []
  | index, p :: rest => do
    let states ← g.patternStates r index p
    let others ← patternsStates g r (index + 1) rest
    pure (states ++ others)

/-- The entry state of a rule, followed by the states of its patterns. -/
def ruleStates (g : Grammar α) (r : Rule α) : Run Memo (List State) := do
  let optional ← g.isOptional r
  let entry : State := ⟨⟨r.id, none, 0⟩, [], optional, r.repeatable, []⟩
  let states ← g.patternsStates r 0 r.patterns
  pure (entry :: states)

/-- The states of some rules, without transitions. -/
def statesOf (g : Grammar α) : List (Rule α) → Run Memo (List State)
  | [] => pure []
  | r :: rest => do
    let states ← g.ruleStates r
    let others ← statesOf g rest
    pure (states ++ others)

/-! ## Transitions -/

/-- Follows the elements of a pattern from an index on, and adds the transitions met to a state.
`chain` are the references being followed, the outermost first, and `enter` follows a rule. The
second result says whether the end of the pattern was reached. -/
def along (g : Grammar α) (optional : Rule α → Bool)
    (enter : Rule α → List Key → State → Except Fault State)
    (rule : RuleId) (pattern : Nat) (whole : List Descriptor) (loopBack : Bool) :
    List Descriptor → Nat → List Key → State → Except Fault (State × Bool)
  | [], _, _, s => .ok (s, true)
  | d :: rest, index, chain, s => do
    let here : Key := ⟨rule, some pattern, index⟩
    if d.isTerminal then
      let s' ← s.addTransition ⟨d.normalized, here, chain, loopBack⟩
      pure (s', false)
    else
      let r ← g.referenced d.name whole
      -- A reference that is being followed already adds no transitions of its own.
      let s' ← if here ∈ chain then pure s else enter r (chain ++ [here]) s
      if optional r then
        along g optional enter rule pattern whole loopBack rest (index + 1) chain s'
      else pure (s', false)

/-- Follows all patterns of a rule from their start. The first argument bounds the length
of the chain. -/
def enterRule (g : Grammar α) (optional : Rule α → Bool) (loopBack : Bool) :
    Nat → Rule α → List Key → State → Except Fault State
  | 0, _, _, _ => .error .exhausted
  | n + 1, r, chain, s =>
    r.patterns.zipIdx.foldlM (fun s (p, index) => do
      let (s', _) ← along g optional (enterRule g optional loopBack n) r.id index p.tokens loopBack
        p.tokens 0 chain s
      pure s') s

/-- The number of positions in all patterns. A chain holds none of them twice. -/
def positions (g : Grammar α) : Nat :=
  (g.rules.flatMap fun r => r.patterns.flatMap (·.tokens)).length

/-- A state with all its transitions. -/
def wire (g : Grammar α) (optional : Rule α → Bool) (s : State) : Except Fault State := do
  match g.byId? s.key.rule with
  | none => pure s
  | some r =>
    match s.key.pattern with
    | none => enterRule g optional false (g.positions + 1) r [] s
    | some index =>
      let (s', ended) ← along g optional (enterRule g optional false (g.positions + 1)) r.id index
        s.tokens false (s.tokens.drop (s.key.index + 1)) (s.key.index + 1) [] s
      -- All that was left of the pattern may be missing here, so the rule may start over.
      if ended && r.repeatable then enterRule g optional true (g.positions + 1) r [] s'
      else pure s'

/-- The table of all states of a grammar. When the states are made every rule is worked out, so the
memo knows all about optional rules when they are wired. -/
def compile (g : Grammar α) : Run Memo Table := do
  let states ← g.statesOf g.rules
  let memo ← Run.get
  let optional := fun (r : Rule α) => (memo.lookup r.id).getD false
  let table ← Run.ofExcept (states.mapM (g.wire optional))
  Run.emit (.compiled g.rules.length table)
  pure table

end Grammar

end GrammarEngine
