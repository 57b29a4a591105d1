import GrammarEngine.Proofs.Grammar.Vanishing
import Mathlib.Data.List.Basic

/-!
# Documentation does not matter to the table

What is said about the patterns of a grammar for the manual, and how far they are supported, does
not go into the table: compiling looks at the elements of patterns and at the marks of rules only.
This is shown function by function, for a grammar and the same one without its documentation.

Main results:

* `ruleOptional_undocumented` — which rules are optional.
* `wire_undocumented` — the transitions of a state.
* `compile_congr` — grammars that differ in documentation only are compiled alike.
-/

namespace GrammarEngine

variable {α : Type}

/-- A pattern without its documentation. -/
def Pattern.undocumented (p : Pattern α) : Pattern α := .ofTokens p.tokens p.action

/-- The elements of a pattern are no documentation. -/
theorem Pattern.tokens_of_undocumented {p p' : Pattern α} (h : p'.undocumented = p.undocumented) :
    p'.tokens = p.tokens := (congrArg Pattern.tokens h :)

/-- Its action is none, either. -/
theorem Pattern.action_of_undocumented {p p' : Pattern α} (h : p'.undocumented = p.undocumented) :
    p'.action = p.action := (congrArg Pattern.action h :)

/-- A rule without the documentation of its patterns. -/
def Rule.undocumented (r : Rule α) : Rule α :=
  { r with patterns := r.patterns.map Pattern.undocumented }

namespace Grammar

/-- A grammar without documentation. -/
def undocumented (g : Grammar α) : Grammar α where
  rules := g.rules.map Rule.undocumented
  distinct := by
    rw [List.map_map]
    exact g.distinct

variable (g : Grammar α)

/-- Rules are found by the same names. -/
theorem find?_undocumented (name : String) :
    g.undocumented.find? name = (g.find? name).map Rule.undocumented := List.find?_map ..

/-- And by the same identities. -/
theorem byId?_undocumented (id : RuleId) :
    g.undocumented.byId? id = (g.byId? id).map Rule.undocumented := List.find?_map ..

/-- References lead to the same rules. -/
theorem referenced_undocumented (name : String) (pattern : List Descriptor) :
    g.undocumented.referenced name pattern = (g.referenced name pattern).map Rule.undocumented := by
  rw [referenced, referenced, find?_undocumented]
  cases g.find? name <;> rfl

/-- The rule that an element refers to is looked up, and more is done with it. -/
theorem ofExcept_referenced_bind {β : Type}
    (name : String) (pattern : List Descriptor) (f : Rule α → Run Memo β) :
    (Run.ofExcept (g.undocumented.referenced name pattern) >>= f) =
      Run.ofExcept (g.referenced name pattern) >>= fun r => f r.undocumented := by
  rw [referenced_undocumented]
  cases g.referenced name pattern <;> rfl

-- ---------------------------------------------------------------------------
-- Optional rules
-- ---------------------------------------------------------------------------

section Optional

variable {g} {ask ask' : Rule α → Run Memo Bool} (h : ∀ r, ask' r.undocumented = ask r)

include h

/-- Whether elements are optional is answered alike, if rules are asked about alike. -/
theorem elementsOptional_undocumented (pattern tokens : List Descriptor) :
    g.undocumented.elementsOptional ask' pattern tokens =
      g.elementsOptional ask pattern tokens := by
  induction tokens with
  | nil => rfl
  | cons d rest ih => simp only [elementsOptional, ofExcept_referenced_bind, h, ih]

/-- So it is for the patterns of a rule. -/
theorem patternsOptional_undocumented (patterns : List (Pattern α)) :
    g.undocumented.patternsOptional ask' (patterns.map Pattern.undocumented) =
      g.patternsOptional ask patterns := by
  induction patterns with
  | nil => rfl
  | cons p rest ih =>
    simp only [List.map_cons, patternsOptional, Pattern.undocumented, Pattern.ofTokens,
      elementsOptional_undocumented h]
    rw [← ih]

end Optional

/-- And for a rule. -/
theorem ruleOptional_undocumented (n : Nat) (visiting : List String) (r : Rule α) :
    g.undocumented.ruleOptional n visiting r.undocumented = g.ruleOptional n visiting r := by
  induction n generalizing visiting r with
  | zero => rfl
  | succ n ih =>
    have hpatterns := patternsOptional_undocumented (g := g) (ih (r.name :: visiting)) r.patterns
    simp only [ruleOptional]
    rw [← hpatterns]
    rfl

/-- **The question whether a rule is optional** does not look at documentation. -/
theorem isOptional_undocumented (r : Rule α) :
    g.undocumented.isOptional r.undocumented = g.isOptional r := by
  have hdepth : g.undocumented.depth = g.depth := congrArg (· + 2) (List.length_map ..)
  rw [isOptional, isOptional, hdepth, ruleOptional_undocumented]

-- ---------------------------------------------------------------------------
-- States
-- ---------------------------------------------------------------------------

/-- The elements at the end that may be passed over are the same. -/
theorem trailingOptional_undocumented (pattern tokens : List Descriptor) :
    g.undocumented.trailingOptional pattern tokens = g.trailingOptional pattern tokens := by
  induction tokens with
  | nil => rfl
  | cons d rest ih =>
    simp only [trailingOptional, ofExcept_referenced_bind, isOptional_undocumented, ih]

/-- The states of a rule are the same. -/
theorem patternsStates_undocumented (r : Rule α) (index : Nat) (patterns : List (Pattern α)) :
    g.undocumented.patternsStates r.undocumented index (patterns.map Pattern.undocumented) =
      g.patternsStates r index patterns := by
  have hpattern (index : Nat) (p : Pattern α) :
      g.undocumented.patternStates r.undocumented index p.undocumented =
        g.patternStates r index p := by
    simp only [patternStates, Pattern.undocumented, Pattern.ofTokens, trailingOptional_undocumented]
    rfl
  induction patterns generalizing index with
  | nil => rfl
  | cons p rest ih => simp only [List.map_cons, patternsStates, hpattern, ih]

/-- And those of all rules. -/
theorem statesOf_undocumented (rules : List (Rule α)) :
    g.undocumented.statesOf (rules.map Rule.undocumented) = g.statesOf rules := by
  have hrule (r : Rule α) : g.undocumented.ruleStates r.undocumented = g.ruleStates r := by
    have hpatterns := patternsStates_undocumented g r 0 r.patterns
    simp only [ruleStates, isOptional_undocumented, ← hpatterns]
    rfl
  induction rules with
  | nil => rfl
  | cons r rest ih => simp only [List.map_cons, statesOf, hrule, ih]

-- ---------------------------------------------------------------------------
-- Transitions
-- ---------------------------------------------------------------------------

/-- There are as many places in all patterns. -/
theorem positions_undocumented : g.undocumented.positions = g.positions := by
  have hrule (r : Rule α) : r.undocumented.patterns.flatMap (·.tokens) =
      r.patterns.flatMap (·.tokens) :=
    List.flatMap_map ..
  rw [positions, positions, undocumented, List.flatMap_map]
  simp only [hrule]

/-- Going along a pattern finds the same transitions, if entering rules does. -/
theorem along_undocumented {optional optional' : Rule α → Bool}
    (hoptional : ∀ r, optional' r.undocumented = optional r)
    {enter enter' : Rule α → List Key → State → Except Fault State}
    (henter : ∀ r chain s, enter' r.undocumented chain s = enter r chain s) (rule : RuleId)
    (pattern : Nat) (whole : List Descriptor) (loopBack : Bool) (tokens : List Descriptor)
    (index : Nat) (chain : List Key) (s : State) :
    g.undocumented.along optional' enter' rule pattern whole loopBack tokens index chain s =
      g.along optional enter rule pattern whole loopBack tokens index chain s := by
  induction tokens generalizing index s with
  | nil => rfl
  | cons d rest ih =>
    simp only [along, referenced_undocumented]
    cases g.referenced d.name whole with
    | error fault => rfl
    | ok r => simp only [Except.map, bind, Except.bind, hoptional, henter, ih]

/-- Entering a rule finds the same transitions. -/
theorem enterRule_undocumented {optional optional' : Rule α → Bool}
    (hoptional : ∀ r, optional' r.undocumented = optional r) (loopBack : Bool) (n : Nat)
    (r : Rule α) (chain : List Key) (s : State) :
    g.undocumented.enterRule optional' loopBack n r.undocumented chain s =
      g.enterRule optional loopBack n r chain s := by
  induction n generalizing r chain s with
  | zero => rfl
  | succ n ih =>
    simp only [enterRule, Rule.undocumented, List.zipIdx_map, List.foldlM_map,
      along_undocumented g hoptional ih]
    rfl

/-- So each state is wired alike. -/
theorem wire_undocumented {optional optional' : Rule α → Bool}
    (hoptional : ∀ r, optional' r.undocumented = optional r)
    (s : State) : g.undocumented.wire optional' s = g.wire optional s := by
  have henter := enterRule_undocumented g hoptional
  simp only [wire, byId?_undocumented, positions_undocumented]
  cases g.byId? s.key.rule with
  | none => rfl
  | some r =>
    simp only [Option.map_some, henter,
      along_undocumented g hoptional (henter false (g.positions + 1))]
    rfl

/-- **Compiling** does not look at documentation. -/
theorem compile_undocumented : g.undocumented.compile = g.compile := by
  have hrules : g.undocumented.rules = g.rules.map Rule.undocumented := rfl
  have hwire (memo : Memo) :
      g.undocumented.wire (fun r => (memo.lookup r.id).getD false) = g.wire fun r =>
        (memo.lookup r.id).getD false :=
    funext (wire_undocumented g fun _ => rfl)
  simp only [compile, hrules, statesOf_undocumented, hwire, List.length_map]

/-- **Documentation does not matter to the table.** -/
theorem compile_congr {g g' : Grammar α} (h : g.undocumented = g'.undocumented) :
    g.compile = g'.compile := by
  rw [← compile_undocumented g, h, compile_undocumented]

-- ---------------------------------------------------------------------------
-- Changes of documentation
-- ---------------------------------------------------------------------------

/-- A change that a rule may undergo, or refuse, by which at most its documentation changes. -/
def Documents (change : Rule α → Except Fault (Rule α)) : Prop :=
  ∀ r r', change r = .ok r' → r'.undocumented = r.undocumented

/-- The latest pattern may change if it keeps its elements and its action. -/
theorem documents_changeLast {f : Rule α → Pattern α → Except Fault (Pattern α)}
    (h : ∀ r p p', f r p = .ok p' → p'.undocumented = p.undocumented) :
    Documents fun r => r.changeLast (f r) := by
  intro r r' hr'
  simp only [Rule.changeLast] at hr'
  split at hr'
  · cases hr'
  · next p hlast =>
    obtain ⟨p', hp', hr'⟩ := bind_eq_ok.mp hr'
    obtain rfl := Except.ok.inj hr'
    have hpatterns : r.patterns.map Pattern.undocumented =
        (r.patterns.dropLast ++ [p]).map Pattern.undocumented := by
          rw [List.dropLast_append_getLast? p hlast]
    simp only [Rule.undocumented, hpatterns, List.map_append, List.map_singleton, h r p p' hp']

/-- A rule of a grammar whose documentation changes. -/
theorem undocumented_put {g : Grammar α} {r r' : Rule α} (hr : r ∈ g.rules)
    (h : r'.undocumented = r.undocumented) : (g.put r').undocumented = g.undocumented := by
  have hname : r'.undocumented.name = r.undocumented.name := congrArg Rule.name h
  change r'.name = r.name at hname
  have hmem : r'.name ∈ g.rules.map Rule.name := hname ▸ List.mem_map_of_mem hr
  have hrules : (replaced r' g.rules).map Rule.undocumented = g.rules.map Rule.undocumented := by
    rw [replaced, List.map_map]
    refine List.map_congr_left fun other hother => ?_
    by_cases hsame : other.name = r'.name
    · obtain rfl : other = r := eq_of_name_eq hother hr (hsame.trans hname)
      simp [hname, h]
    · simp [hsame]
  simp only [put, hmem, dite_true, undocumented, hrules]

end Grammar

end GrammarEngine
