import GrammarEngine.Parser.Actions
import GrammarEngine.Proofs.Grammar.Clauses
import GrammarEngine.Proofs.Parser.Wear

/-!
# Resetting a parser

A parser may be used again and again: rules are declared, inputs are parsed with or without success,
kinds of tokens are excluded. Resetting it makes it as good as one that was never used for a parse.
What resetting leaves in place, the table, the memo and the mark of being current, is either made
anew before the next parse, or it is what would be made.

A declaration (`Declaration`) does the same on a parser and on the cleared one. A parse leaves the
cleared parser as it was. So along any history the parser, once cleared, is the one that only the
declarations were made on.

Main results:

* `declares_run` — declarations cannot tell a parser from the cleared one.
* `run_ofClauses`, `run_groups` — rules with all that is said about them, and named groups of
  declarations, are declarations.
* `after_cleared` — what a history leaves.
* `parse_after_reset` — the parse after a reset.
-/

namespace GrammarEngine

open Run

variable {σ α β : Type}

-- ---------------------------------------------------------------------------
-- Declarations
-- ---------------------------------------------------------------------------

/-- A run whose fault, if any, is passed over. -/
def Run.attempt (x : Run σ α) : Run σ Unit := fun s => ⟨.ok (), (x s).state, (x s).trace⟩

/-- What may be said about the rules of a parser: one thing after the other, also passing over
what is refused. -/
inductive Declaration (σ : Type) where
  | done
  | andThen (first rest : Declaration σ)
  | attempt (declaration : Declaration σ)
  | newRule (name : String)
  | withRule (name : String) (body : Declaration σ)
  | pattern (elements : List Element) (action : Option (Action σ))
  | optional
  | repeatable
  | document (change : Rule (Action σ) → Except Fault (Rule (Action σ)))
      (h : Grammar.Documents change)

namespace Declaration

/-- Makes a declaration. -/
def run : Declaration σ → Run (Parser σ) Unit
  | done => pure ()
  | andThen first rest => do
    first.run
    rest.run
  | attempt declaration => declaration.run.attempt
  | newRule name => Parser.newRule name
  | withRule name body => Parser.withRule name body.run
  | pattern elements action => discard (Parser.pattern elements action)
  | optional => Parser.optional
  | repeatable => Parser.repeatable
  | document change _ => Parser.changeCurrent change

/-- What is said about the current rule. -/
def ofClause : Clause (Action σ) → Declaration σ
  | .pattern elements action => pattern elements action
  | .optional => optional
  | .repeatable => repeatable
  | .remark remark => document remark.apply (Grammar.documents_remark remark)

/-- Declares a rule, with all that is said about it. -/
def ofClauses (name : String) (clauses : List (Clause (Action σ))) : Declaration σ :=
  withRule name (clauses.foldr (fun clause rest => andThen (ofClause clause) rest) done)

/-- Declares a rule for each of some named groups of declarations whose name begins with `rule_`, in
alphabetical order. -/
def groups (groups : List (String × Declaration σ)) : Declaration σ :=
  (groups.mergeSort fun a b => decide (a.1 ≤ b.1)).foldr (fun (name, declaration) rest =>
    if name.startsWith "rule_" then
      andThen (withRule (String.ofList (name.toList.drop 5)) declaration) rest else rest)
    done

/-- The actions of the declared patterns leave the grammar alone. -/
def Settled : Declaration σ → Prop
  | andThen first rest => first.Settled ∧ rest.Settled
  | attempt declaration | withRule _ declaration => declaration.Settled
  | pattern _ action => Action.Settled action
  | _ => True

end Declaration

namespace Parser

variable {p p' : Parser σ}

/-- A cleared parser has the same rules. -/
theorem find?_cleared (p : Parser σ) (name : String) :
    p.cleared.grammar.find? name = p.grammar.find? name := rfl

/-- And so has one that was reset. -/
theorem find?_reset (p : Parser σ) (name : String) :
    p.reset.grammar.find? name = p.grammar.find? name := rfl

/-- The rule being declared is found in the cleared parser as well. -/
theorem current_cleared (p : Parser σ) :
    p.cleared.current.bind p.cleared.rule? = p.current.bind p.rule? := rfl

/-- The check of the rules comes to the same on the cleared parser. -/
theorem check_cleared (p : Parser σ) :
    p.cleared.grammar.rules.forM p.cleared.checkRule = p.grammar.rules.forM p.checkRule := rfl

/-- It does so on one that was reset. -/
theorem check_reset (p : Parser σ) :
    p.reset.grammar.rules.forM p.reset.checkRule = p.grammar.rules.forM p.checkRule := rfl

/-- Compiling does not look at what is cleared, apart from the memo. -/
theorem compile_cleared (p : Parser σ) :
    p.cleared.grammar.compile.run [] = p.grammar.compile.run [] := rfl

/-- Nor at what is reset. -/
theorem compile_reset (p : Parser σ) :
    p.reset.grammar.compile.run [] = p.grammar.compile.run [] := rfl

/-- A table that does not count as current need not be made of the grammar. -/
theorem sound_of_stale (h : p.isStale = true) : p.Sound :=
  fun hfresh => Bool.noConfusion (h.symm.trans hfresh)

/-- A run that cannot tell a parser from the cleared one, and keeps the table sound and the
actions settled. -/
structure Declares (x : Run (Parser σ) α) : Prop where
  clears : ∀ p, x.run p.cleared = ⟨(x.run p).result, (x.run p).state.cleared, (x.run p).trace⟩
  sound : Keeps Sound x
  settled : Keeps Settled x

/-- A value is declared by doing nothing. -/
theorem declares_pure (a : α) : Declares (pure a : Run (Parser σ) α) :=
  ⟨fun _ => rfl, keeps_pure a, keeps_pure a⟩

/-- Giving up is no way to tell, either. -/
theorem declares_fail (fault : Fault) : Declares (fail fault : Run (Parser σ) α) :=
  ⟨fun _ => rfl, keeps_fail fault, keeps_fail fault⟩

/-- One declaration may follow another. -/
theorem declares_bind {x : Run (Parser σ) α} {f : α → Run (Parser σ) β}
    (hx : Declares x) (hf : ∀ a, Declares (f a)) : Declares (x >>= f) where
  clears p := by
    rw [run_bind, run_bind, hx.clears]
    rcases x.run p with ⟨fault | a, p', trace⟩
    · rfl
    · simp only [(hf a).clears]
  sound := keeps_bind hx.sound fun a => (hf a).sound
  settled := keeps_bind hx.settled fun a => (hf a).settled

/-- A declaration that is refused may be passed over. -/
theorem declares_attempt {x : Run (Parser σ) α} (hx : Declares x) : Declares x.attempt where
  clears p := by
    show (⟨.ok (), (x.run p.cleared).state, (x.run p.cleared).trace⟩ : Outcome _ _) = _
    rw [hx.clears]
    rfl
  sound := hx.sound
  settled := hx.settled

/-- Rules are put back in the cleared parser alike. -/
theorem cleared_putBack (r : Rule (Action σ)) (p : Parser σ) :
    (p.putBack r).cleared = p.cleared.putBack r := by
  unfold putBack
  show cleared (if h : (p.grammar.byId? r.id).isSome then _ else _) =
    if h : (p.grammar.byId? r.id).isSome then _ else _
  split <;> rfl

/-- A rule whose actions leave the grammar alone may be put back. -/
theorem Settled.putBack (hp : p.Settled) {r : Rule (Action σ)}
    (hr : ∀ q ∈ r.patterns, Action.Settled q.action) : (p.putBack r).Settled :=
  forall_putBack hp hr

/-- Declaring a rule, in one piece. -/
theorem newRule_run (name : String) (p : Parser σ) : (newRule name).run p =
    match p.grammar.find? name with
    | some _ => ⟨.error (.grammar (.duplicateRule name)), p, []⟩
    | none =>
      ⟨.ok (), { p.putNew name with current := some ⟨name, p.declared⟩, isStale := true }, []⟩ := by
  rw [newRule, run_bind, run_get]
  dsimp only
  cases p.grammar.find? name <;> rfl

/-- A new rule has no actions, and the tables have to be made anew. -/
theorem declares_newRule (name : String) : Declares (newRule name : Run (Parser σ) Unit) := by
  refine ⟨fun p => ?_, fun p hp => ?_, fun p hp => ?_⟩
  · rw [newRule_run, newRule_run, find?_cleared]
    cases p.grammar.find? name <;> rfl
  · unfold Leaves
    rw [newRule_run]
    cases p.grammar.find? name with
    | some r => exact hp
    | none => exact sound_of_stale rfl
  · unfold Leaves
    rw [newRule_run]
    cases p.grammar.find? name with
    | some r => exact hp
    | none => exact forall_putNew hp name

/-- What is said about a rule is said about the current one. -/
theorem declares_withRule (name : String) {x : Run (Parser σ) α} (hx : Declares x) :
    Declares (withRule name x) := by
  have hboth := declares_bind (declares_newRule name) fun _ => hx
  have hrun (p : Parser σ) : (withRule name x).run p =
      ⟨((newRule name >>= fun _ => x).run p).result,
        { ((newRule name >>= fun _ => x).run p).state with current := p.current },
        ((newRule name >>= fun _ => x).run p).trace⟩ := by
    rw [withRule, run_bind, run_get]
    simp only [List.append_nil]
    rfl
  refine ⟨fun p => ?_, fun p hp => ?_, fun p hp => ?_⟩
  · rw [hrun, hrun, hboth.clears]
    rfl
  · unfold Leaves
    rw [hrun]
    exact hboth.sound p hp
  · unfold Leaves
    rw [hrun]
    exact hboth.settled p hp

/-- Changing the current rule, in one piece. -/
theorem changeCurrent_run (f : Rule (Action σ) → Except Fault (Rule (Action σ))) (p : Parser σ) :
    (changeCurrent f).run p =
      match p.current.bind p.rule? with
      | none => ⟨.error (.grammar .noRuleYet), p, []⟩
      | some r =>
        match f r with
        | .error fault => ⟨.error fault, p, []⟩
        | .ok r' => ⟨.ok (), p.putBack r', []⟩ := by
  rw [changeCurrent, currentRule, bind_assoc, run_bind, run_get]
  dsimp only
  cases p.current.bind p.rule? with
  | none => rfl
  | some r =>
    dsimp only
    rw [pure_bind]
    cases f r <;> rfl

/-- A change of the current rule comes to the same in the cleared parser. -/
theorem changeCurrent_cleared (f : Rule (Action σ) → Except Fault (Rule (Action σ)))
    (p : Parser σ) :
    (changeCurrent f).run p.cleared =
      ⟨((changeCurrent f).run p).result, ((changeCurrent f).run p).state.cleared,
        ((changeCurrent f).run p).trace⟩ := by
  rw [changeCurrent_run, changeCurrent_run, current_cleared]
  cases p.current.bind p.rule? with
  | none => rfl
  | some r =>
    dsimp only
    cases f r with
    | error fault => rfl
    | ok r' =>
      dsimp only
      rw [cleared_putBack]

/-- It keeps what is kept when the changed rule is put back. -/
theorem keeps_changeCurrent {inv : Parser σ → Prop}
    {f : Rule (Action σ) → Except Fault (Rule (Action σ))}
    (hput : ∀ {p r r'}, inv p → p.rule? r.id = some r → f r = .ok r' → inv (p.putBack r')) :
    Keeps inv (changeCurrent f) := by
  intro p hp
  unfold Leaves
  rw [changeCurrent_run]
  cases hr : p.current.bind p.rule? with
  | none => exact hp
  | some r =>
    dsimp only
    cases hf : f r with
    | error fault => exact hp
    | ok r' =>
      obtain ⟨id, -, hid⟩ := Option.bind_eq_some_iff.mp hr
      exact hput hp (id_of_rule? hid ▸ hid) hf

/-- Changing the current rule in a way that the table depends on, in one piece. -/
theorem reshapeCurrent_run (f : Rule (Action σ) → Rule (Action σ)) (p : Parser σ) :
    (reshapeCurrent f).run p =
      match p.current.bind p.rule? with
      | none => ⟨.error (.grammar .noRuleYet), p, []⟩
      | some r => ⟨.ok (), { p.putBack (f r) with isStale := true }, []⟩ := by
  rw [reshapeCurrent, run_bind, changeCurrent_run]
  cases p.current.bind p.rule? <;> rfl

/-- A change that the tables depend on marks them as not current. -/
theorem declares_reshapeCurrent {f : Rule (Action σ) → Rule (Action σ)}
    (hf : ∀ r, (∀ q ∈ r.patterns, Action.Settled q.action) →
      ∀ q ∈ (f r).patterns, Action.Settled q.action) :
    Declares (reshapeCurrent f) := by
  refine ⟨fun p => ?_, fun p hp => ?_, ?_⟩
  · rw [reshapeCurrent, run_bind, run_bind, changeCurrent_cleared]
    rcases (changeCurrent fun r => .ok (f r)).run p with ⟨fault | a, p', trace⟩ <;> rfl
  · unfold Leaves
    rw [reshapeCurrent_run]
    cases p.current.bind p.rule? with
    | none => exact hp
    | some r => exact sound_of_stale rfl
  · refine keeps_bind (keeps_changeCurrent fun {p r r'} hp hr hr' => ?_) fun _ => keeps_modify
      fun p hp => hp
    obtain rfl := Except.ok.inj hr'
    exact hp.putBack (hf r (hp r (mem_of_rule? hr)))

-- ---------------------------------------------------------------------------
-- Documentation
-- ---------------------------------------------------------------------------

/-- The check of a rule does not look at its documentation. -/
theorem checkRule_undocumented (p : Parser σ) (r : Rule (Action σ)) :
    p.checkRule r.undocumented = p.checkRule r := by
  simp only [checkRule, Rule.undocumented, List.isEmpty_map, List.forM_eq_forM, List.forM_map]
  rfl

/-- The check of the rules does not look at documentation. -/
theorem check_congr (hgrammar : p'.grammar.undocumented = p.grammar.undocumented)
    (hcategories : p'.categories = p.categories) :
    p'.grammar.rules.forM p'.checkRule = p.grammar.rules.forM p.checkRule := by
  have hfind (name : String) : (p'.grammar.find? name).isSome = (p.grammar.find? name).isSome := by
    have h := congrArg (fun g => (g.find? name).isSome) hgrammar
    simpa [Grammar.find?_undocumented] using h
  have helement (rule : String) : p'.checkElement rule = p.checkElement rule := by
    funext d
    simp only [checkElement, hfind, hcategories]
  have hrule : p'.checkRule = p.checkRule := by
    funext r
    simp only [checkRule, helement]
  have hrules (g : Grammar (Action σ)) : g.rules.forM p.checkRule =
      g.undocumented.rules.forM p.checkRule := by
    simp only [Grammar.undocumented, List.forM_eq_forM, List.forM_map, checkRule_undocumented]
  rw [hrule, hrules p'.grammar, hgrammar, ← hrules]

/-- A table stays the one that would be made when only documentation changes. -/
theorem Made.document (h : p.Made) (hgrammar : p'.grammar.undocumented = p.grammar.undocumented)
    (hcategories : p'.categories = p.categories) (htable : p'.table = p.table)
    (hmemo : p'.memo = p.memo) : p'.Made := by
  unfold Made
  rw [check_congr hgrammar hcategories, Grammar.compile_congr hgrammar, htable, hmemo]
  exact h

/-- A rule that was found is put back with other documentation. -/
theorem Made.putBack (h : p.Made) {id : RuleId} {r r' : Rule (Action σ)} (hr : p.rule? id = some r)
    (hsame : r'.undocumented = r.undocumented) : (p.putBack r').Made := by
  unfold Parser.putBack
  split
  · next hsome =>
    have hsameId : r'.id = r.id := congrArg (fun r => r.id) hsame
    have hid : r'.id = id := hsameId.trans (id_of_rule? hr)
    obtain ⟨s, hs⟩ := Option.isSome_iff_exists.mp hsome
    obtain rfl : s = r := Option.some.inj ((rule?_eq_of_byId? (hid ▸ hs)).symm.trans hr)
    exact h.document (Grammar.undocumented_put (List.mem_of_find?_eq_some hs) hsame) rfl rfl rfl
  · exact h.document rfl rfl rfl rfl

/-- A change of documentation leaves the table the one that would be made. -/
theorem declares_document {change : Rule (Action σ) → Except Fault (Rule (Action σ))}
    (h : Grammar.Documents change) : Declares (changeCurrent change) := by
  refine ⟨changeCurrent_cleared change, keeps_changeCurrent fun {p r r'} hp hr hr' hfresh => ?_,
    keeps_changeCurrent fun {p r r'} hp hr hr' => ?_⟩
  · have hstale : (p.putBack r').isStale = p.isStale := by
      unfold Parser.putBack
      split <;> rfl
    exact (hp (hstale ▸ hfresh)).putBack hr (h r r' hr')
  · exact hp.putBack (Grammar.forall_of_undocumented (h r r' hr') (hp r (mem_of_rule? hr)))

-- ---------------------------------------------------------------------------
-- All declarations
-- ---------------------------------------------------------------------------

/-- A pattern brings in its own action only. -/
theorem declares_pattern (elements : List Element) {action : Option (Action σ)}
    (haction : Action.Settled action) : Declares (pattern elements action) := by
  unfold pattern
  cases hnew : Pattern.ofElements elements action with
  | error fault => exact declares_fail fault
  | ok new =>
    change Declares (pure new >>= _)
    rw [pure_bind]
    have hadd (r : Rule (Action σ)) : (Clause.pattern elements action).apply r =
        .ok (r.addPattern new) :=
      bind_eq_ok.mpr ⟨new, hnew, rfl⟩
    refine declares_bind (declares_reshapeCurrent fun r hr => ?_) fun _ => declares_pure _
    exact Clause.forall_apply (hadd r) hr haction

/-- **No declaration can tell** a parser from the cleared one. -/
theorem declares_run {d : Declaration σ} (h : d.Settled) : Declares d.run := by
  induction d with
  | done => exact declares_pure ()
  | andThen first rest ihfirst ihrest => exact declares_bind (ihfirst h.1) fun _ => ihrest h.2
  | attempt d ih => exact declares_attempt (ih h)
  | newRule name => exact declares_newRule name
  | withRule name body ih => exact declares_withRule name (ih h)
  | pattern elements action =>
    exact declares_bind (declares_pattern elements h) fun _ => declares_pure _
  | optional => exact declares_reshapeCurrent fun _ hr => hr
  | repeatable => exact declares_reshapeCurrent fun _ hr => hr
  | document change hchange => exact declares_document hchange

/-- Declaring a rule, as an action may do it, is a declaration. -/
theorem run_ofClauses (name : String) (clauses : List (Clause (Action σ))) :
    (Declaration.ofClauses name clauses).run = declareRule name clauses := by
  have hclause (clause : Clause (Action σ)) : (Declaration.ofClause clause).run =
      declare clause := by
    cases clause <;> rfl
  have hclauses :
      (clauses.foldr (fun clause rest => .andThen (.ofClause clause) rest) Declaration.done).run =
      clauses.forM declare := by
    induction clauses with
    | nil => rfl
    | cons clause rest ih =>
      show ((Declaration.ofClause clause).run >>= fun _ => Declaration.run _) =
        declare clause >>= fun _ => rest.forM declare
      rw [hclause, ih]
  unfold Declaration.ofClauses declareRule
  rw [← hclauses]
  rfl

/-- Declaring named groups of declarations is a declaration. -/
theorem run_groups (groups : List (String × Declaration σ)) :
    (Declaration.groups groups).run =
      declareRules (groups.map fun group => (group.1, group.2.run)) := by
  have hsort :
      (groups.map fun group => (group.1, group.2.run)).mergeSort (fun a b => decide (a.1 ≤ b.1)) =
      (groups.mergeSort fun a b => decide (a.1 ≤ b.1)).map fun group => (group.1, group.2.run) :=
    (List.map_mergeSort (f := fun group : String × Declaration σ =>
      (group.1, group.2.run)) fun _ _ _ _ => rfl).symm
  unfold Declaration.groups declareRules
  rw [hsort]
  induction groups.mergeSort fun a b => decide (a.1 ≤ b.1) with
  | nil => rfl
  | cons group rest ih =>
    dsimp only at ih ⊢
    rw [List.foldr_cons, List.map_cons, List.forIn_cons]
    split
    · simp only [bind_assoc, pure_bind, ← ih]
      rfl
    · rw [pure_bind]
      exact ih

-- ---------------------------------------------------------------------------
-- Histories
-- ---------------------------------------------------------------------------

/-- What may be done with a parser. A use that fails may be followed by others. -/
inductive Use (σ : Type) where
  | declare (declaration : Declaration σ)
  | parse (rounds : Nat) (rule : String) (source : σ)
  | rebuild
  | limit (kinds : List String)
  | reset

namespace Use

/-- The actions of the patterns that are declared leave the grammar alone. -/
def Settled : Use σ → Prop
  | declare declaration => declaration.Settled
  | _ => True

/-- Whether a use is a declaration rather than a parse. -/
def isDeclaration : Use σ → Bool
  | declare _ => true
  | _ => false

/-- The parser after it was used, with or without success. -/
def apply [TokenSource σ] (p : Parser σ) : Use σ → Parser σ
  | declare declaration => (declaration.run.run p).state
  | parse rounds rule source => ((Parser.parse rounds rule source).run p).state
  | rebuild => (updateTable.run p).state
  | limit kinds => p.limit kinds
  | reset => p.reset

end Use

/-- A parser on which nothing has been declared. -/
def new (categories keywordKinds : List String) (messages : MessageLog) : Parser σ :=
  { categories, keywordKinds, messages }

/-- Whether actions are settled can be told from the cleared parser. -/
theorem settled_of_cleared (h : p'.cleared = p.cleared) (hp : p.Settled) : p'.Settled := by
  have hcleared : p'.cleared.Settled := h ▸ hp
  exact hcleared

section History

variable [TokenSource σ]

/-- The parser after a history of uses. -/
def after (p : Parser σ) (history : List (Use σ)) : Parser σ := history.foldl Use.apply p

/-- One use. -/
theorem apply_cleared {use : Use σ} (huse : use.Settled) (hsound : p.Sound) (hsettled : p.Settled) :
    (use.apply p).Sound ∧ (use.apply p).Settled ∧
      (use.apply p).cleared = if use.isDeclaration then use.apply p.cleared else p.cleared := by
  cases use with
  | declare d =>
    have hd := declares_run huse
    exact ⟨hd.sound p hsound, hd.settled p hsettled, (congrArg Outcome.state (hd.clears p)).symm⟩
  | parse rounds rule source =>
    obtain ⟨hcleared, hsound'⟩ := parse_leaves rounds rule source hsound hsettled
    exact ⟨hsound', settled_of_cleared hcleared hsettled, hcleared⟩
  | rebuild =>
    obtain ⟨hcleared, hsound', -⟩ := updateTable_leaves hsound
    exact ⟨hsound', settled_of_cleared hcleared hsettled, hcleared⟩
  | limit kinds => exact ⟨hsound, hsettled, rfl⟩
  | reset => exact ⟨hsound, hsettled, rfl⟩

/-- **What a history leaves**, apart from the traces of parses, is what its declarations
alone leave. -/
theorem after_cleared {history : List (Use σ)}
    (hhistory : ∀ use ∈ history, use.Settled) (hsound : p.Sound) (hsettled : p.Settled) :
    (p.after history).Sound ∧
      (p.after history).cleared = p.cleared.after (history.filter Use.isDeclaration) := by
  induction history generalizing p with
  | nil => exact ⟨hsound, rfl⟩
  | cons use rest ih =>
    obtain ⟨huse, hrest⟩ := List.forall_mem_cons.mp hhistory
    obtain ⟨hsound', hsettled', hcleared⟩ := apply_cleared huse hsound hsettled
    obtain ⟨hafter, heq⟩ := ih hrest hsound' hsettled'
    refine ⟨hafter, heq.trans ?_⟩
    rw [hcleared, List.filter_cons]
    split <;> rfl

end History

-- ---------------------------------------------------------------------------
-- The parse after a reset
-- ---------------------------------------------------------------------------

/-- Two outcomes cannot be told apart, and if they are values what is left is the same. -/
structure Alike (o o' : Outcome (Parser σ) α) : Prop where
  result : o.result = o'.result
  source : o.state.source = o'.state.source
  messages : o.state.messages = o'.state.messages
  state : ∀ a, o.result = .ok a → o.state = o'.state

/-- Faults with the same source and messages beside them are alike. -/
theorem alike_error {fault : Fault} {trace trace' : List Event} (hsource : p.source = p'.source)
    (hmessages : p.messages = p'.messages) :
    Alike (⟨.error fault, p, trace⟩ : Outcome (Parser σ) α) ⟨.error fault, p', trace'⟩ :=
  ⟨rfl, hsource, hmessages, nofun⟩

/-- Alike beginnings go on alike. -/
theorem Alike.bind {x y : Run (Parser σ) α} (h : Alike (x.run p) (y.run p'))
    (f : α → Run (Parser σ) β) : Alike ((x >>= f).run p) ((y >>= f).run p') := by
  rw [run_bind, run_bind]
  generalize x.run p = o at h
  generalize y.run p' = o' at h
  obtain ⟨hresult, hsource, hmessages, hstate⟩ := h
  rcases o with ⟨fault | a, t, trace⟩ <;> rcases o' with ⟨fault' | a', t', trace'⟩ <;> cases hresult
  · exact alike_error hsource hmessages
  · obtain rfl : t = t' := hstate a rfl
    exact ⟨rfl, rfl, rfl, fun _ _ => rfl⟩

/-- A table that counts as current is the one that would be made. -/
theorem alike_updateTable (hp : p.Sound) :
    Alike ((if p.isStale then updateTable else pure ()).run p.reset)
      (updateTable.run p.cleared) := by
  by_cases hstale : p.isStale
  · rw [if_pos hstale, updateTable_run, updateTable_run, check_reset, check_cleared, compile_reset,
      compile_cleared]
    cases p.grammar.rules.forM p.checkRule with
    | error fault => exact alike_error rfl rfl
    | ok u =>
      dsimp only
      rcases p.grammar.compile.run [] with ⟨fault | table, memo, trace⟩
      · exact alike_error rfl rfl
      · exact ⟨rfl, rfl, rfl, fun _ _ => rfl⟩
  · have hfresh : p.isStale = false := eq_false_of_ne_true hstale
    obtain ⟨hcheck, trace, hcompile⟩ := hp hfresh
    rw [if_neg hstale, updateTable_run, check_cleared, hcheck]
    dsimp only
    rw [compile_cleared, hcompile]
    refine ⟨rfl, rfl, rfl, fun _ _ => ?_⟩
    show p.reset = { p.reset with isStale := false }
    rw [← hfresh]
    rfl

/-- Preparing a parse, in one piece. -/
theorem prepare_run (rule : String) (p : Parser σ) : (prepare rule).run p =
    match p.grammar.find? rule with
    | none => ⟨.error (.grammar (.unknownStart rule)), p, []⟩
    | some r => ((if p.isStale then updateTable else pure ()) >>= fun _ => pure r).run p := by
  rw [prepare, run_bind, run_get]
  dsimp only
  cases p.grammar.find? rule with
  | none => rfl
  | some r =>
    dsimp only
    split <;> simp

/-- Before a parse the table of a parser that was reset, and of the cleared one, becomes the same,
or cannot be made for the same reason. -/
theorem alike_prepare (rule : String) (hp : p.Sound) :
    Alike ((prepare rule).run p.reset) ((prepare rule).run p.cleared) := by
  rw [prepare_run, prepare_run, find?_reset, find?_cleared]
  cases p.grammar.find? rule with
  | none => exact alike_error rfl rfl
  | some r => exact (alike_updateTable hp).bind _

/-- A parse on a parser that was reset is one on the cleared parser. -/
theorem alike_parse [TokenSource σ] (rounds : Nat) (rule : String) (source : σ) (hp : p.Sound) :
    Alike ((parse rounds rule source).run p.reset) ((parse rounds rule source).run p.cleared) := by
  rw [parse_eq]
  exact (alike_prepare rule hp).bind _

/--
**The parse after a reset.** Let a parser be used in any way: rules are declared, inputs are parsed
from any rules, whatever comes of it, kinds of tokens are excluded, and no action changes the
grammar. After a reset, a parse comes to the same value or fault as on a new parser on which nothing
but the same declarations were made, and it leaves the same source and the same messages.
-/
theorem parse_after_reset [TokenSource σ] (categories keywordKinds : List String)
    (messages : MessageLog) (history : List (Use σ)) (hhistory : ∀ use ∈ history, use.Settled)
    (rounds : Nat) (rule : String) (source : σ) :
    let p := new categories keywordKinds messages
    let used := (parse rounds rule source).run (p.after history).reset
    let fresh := (parse rounds rule source).run (p.after (history.filter Use.isDeclaration))
    used.result = fresh.result ∧ used.state.source = fresh.state.source ∧
      used.state.messages = fresh.state.messages := by
  intro p used fresh
  have hsettled : p.Settled := fun r hr => absurd hr List.not_mem_nil
  obtain ⟨hsound, hcleared⟩ := after_cleared hhistory (sound_of_stale rfl) hsettled
  have hp : p.cleared = p := rfl
  obtain ⟨hresult, hsource, hmessages, -⟩ := alike_parse rounds rule source hsound
  rw [hcleared, hp] at hresult hsource hmessages
  exact ⟨hresult, hsource, hmessages⟩

-- Numbers between brackets. A number may be followed by a mark that an action rejects.

/-- Tokens in brackets. -/
private def inBrackets (inside : List (String × Value)) : TokenQueue :=
  let tokens := [("LITERAL", Value.text "[")] ++ inside ++ [("LITERAL", Value.text "]")]
  .ofTokens "numbers" (tokens.map fun (kind, value) => (kind, value, none))

/-- Lists of numbers in brackets. A mark among the numbers is an error. -/
private def numberRules : Declaration TokenQueue :=
  .andThen (.withRule "items"
      (.andThen (.andThen .optional .repeatable)
        (.andThen (.pattern [.direct ⟨.category, "INTEGER"⟩] (some (Action.element 0)))
          (.pattern [.direct ⟨.literal, "!"⟩]
            (some (Action.complain "rejected" "No mark is allowed here."))))))
    (.withRule "list"
      (.pattern [.direct ⟨.literal, "["⟩, .direct ⟨.reference, "items"⟩, .direct ⟨.literal, "]"⟩]
        (some (Action.element 1))))

/-- A parse that succeeds, one that an action ends, one that meets a kind of token that is not
accepted, and one from a rule that is not there. -/
private def worn : List (Use TokenQueue) :=
  [.declare numberRules,
    .parse 20 "list" (inBrackets [("INTEGER", .number 1), ("INTEGER", .number 2)]),
    .parse 20 "list" (inBrackets [("INTEGER", .number 1), ("LITERAL", .text "!")]),
    .limit ["STRING"], .parse 20 "list" (inBrackets [("INTEGER", .number 1)]),
    .parse 20 "lists" (inBrackets [])]

/-- A list of one number. -/
private def three : TokenQueue := inBrackets [("INTEGER", .number 3)]

/-- No action of that history changes the grammar. -/
private theorem settled_worn : ∀ use ∈ worn, use.Settled := by
  have helement (index : Int) : Action.Settled (some (Action.element (σ := TokenQueue) index)) := by
    rintro _ ⟨⟩ values
    unfold Action.element
    split
    · exact .done _
    · exact .fail _
  have hcomplain (id text : String) : Action.Settled
      (some (Action.complain (σ := TokenQueue) id text)) := by
    rintro _ ⟨⟩ values
    exact .error _ _ _ _
  have hrules : numberRules.Settled := ⟨⟨⟨trivial, trivial⟩, helement 0, hcomplain _ _⟩, helement 1⟩
  intro use huse
  simp only [worn, List.mem_cons, List.not_mem_nil, or_false] at huse
  rcases huse with rfl | rfl | rfl | rfl | rfl | rfl
  · exact hrules
  all_goals trivial

/-- Without the reset the number would not be accepted. -/
theorem parse_after_reset_worn :
    let p := new ["INTEGER", "STRING"] ["ID"] {}
    let used := (parse 20 "list" three).run (p.after worn).reset
    let fresh := (parse 20 "list" three).run (p.after [.declare numberRules])
    (used.result = fresh.result ∧ used.state.source = fresh.state.source ∧
      used.state.messages = fresh.state.messages) ∧
      fresh.result.toOption.map Value.quoted = some "[3]" ∧
      ((parse 20 "list" three).run (p.after worn)).result.toOption.isNone := by
  refine ⟨?_, by decide +kernel, by decide +kernel⟩
  have hdeclarations : worn.filter Use.isDeclaration = [.declare numberRules] := rfl
  rw [← hdeclarations]
  exact parse_after_reset ["INTEGER", "STRING"] ["ID"] {} worn settled_worn 20 "list" three

end Parser

end GrammarEngine
