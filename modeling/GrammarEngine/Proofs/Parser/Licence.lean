import GrammarEngine.Proofs.Laws
import GrammarEngine.Proofs.Parser.Growth

/-!
# What a parser does within the licence of its actions

A licence says what actions may do apart from what harms nobody: which work on the source they
may ask for, whether they may take rules out of the grammar, and with which faults they may give
up. A script stays within a licence if all that it asks for does, and so do the actions that it
adds to the grammar.

If the actions of a parser stay within a licence, all that the machine does can be accounted for:
the actions that come into the grammar or onto the stack stay within it as well, and whatever
happens to the source and to the message log happens in the few places where the machine or an
action turns to them. So a law of the source and one of the message log carry over to the whole
parse (`Parser.law`). They are left open here.

Main results:

* `obeyed_perform` — carrying out a script within a licence.
* `obeyed_updateTable` — rebuilding the tables.
* `obeyed_round` — rounds of the machine.
* `parse_told` — a whole parse.
* `Within.finish`, `Within.round` — after a frame was completed, and after a round, all actions stay
  within the licence again.
-/

namespace GrammarEngine

open Run

variable {σ α β : Type}

-- ---------------------------------------------------------------------------
-- Licences
-- ---------------------------------------------------------------------------

/-- What actions may do. -/
structure Script.Licence (σ : Type) where
  /-- The work on the source that they may ask for. -/
  work : Run σ Value → Prop
  /-- Whether they may take rules out of the grammar. -/
  drops : Prop
  /-- The faults that they may give up with. -/
  fails : Fault → Prop

/-- A script that stays within a licence, as do the actions that it adds to the grammar. -/
inductive Script.Within (licence : Script.Licence σ) : Script σ → Prop
  | source {work : Run σ Value} {rest : Value → Script σ} (hwork : licence.work work)
    (hrest : ∀ v, (rest v).Within licence) : Within licence (.source work rest)
  | here {rest : Option Position → Script σ} (hrest : ∀ place, (rest place).Within licence) :
    Within licence (.here rest)
  | slots {rest : List Value → List (Option Position) → Script σ}
    (hrest : ∀ values positions, (rest values positions).Within licence) :
      Within licence (.slots rest)
  | error (id text : String) (position : Option Position) (data : Payload) :
    Within licence (.error id text position data)
  | warning (id text : String) (position : Option Position) (data : Payload) {rest : Script σ}
    (hrest : rest.Within licence) : Within licence (.warning id text position data rest)
  | limit (kinds : List String) {rest : Script σ} (hrest : rest.Within licence) :
      Within licence (.limit kinds rest)
  | amend (rule : String) {clause : Clause (List Value → Script σ)} {rest : Script σ}
    (haction : ∀ a, clause.action = some a → ∀ values, (a values).Within licence)
    (hrest : rest.Within licence) : Within licence (.amend rule clause rest)
  | dropRule (rule : String) {rest : Script σ}
      (hdrops : licence.drops) (hrest : rest.Within licence) : Within licence (.dropRule rule rest)
  | declareRule (rule : String) {clauses : List (Clause (List Value → Script σ))} {rest : Script σ}
    (hactions : ∀ clause ∈ clauses,
        ∀ a, clause.action = some a → ∀ values, (a values).Within licence)
    (hrest : rest.Within licence) : Within licence (.declareRule rule clauses rest)
  | rebuild {rest : Script σ} (hrest : rest.Within licence) : Within licence (.rebuild rest)
  | fail {fault : Fault} (h : licence.fails fault) : Within licence (.fail fault)
  | done (value : Value) : Within licence (.done value)

/-- An action all of whose scripts stay within a licence; without an action nothing is done. -/
def Action.Within (licence : Script.Licence σ) (action : Option (Action σ)) : Prop :=
  ∀ a, action = some a → ∀ values, (a values).Within licence

/-- A pattern without an action stays within any licence. -/
theorem Action.within_none {licence : Script.Licence σ} : Action.Within licence none := nofun

namespace Parser

/-- The actions of the rules of a parser, and those of the frames on its stack, stay
within a licence. -/
structure Within (licence : Script.Licence σ) (p : Parser σ) : Prop where
  rules : ∀ r ∈ p.grammar.rules ++ p.former, ∀ q ∈ r.patterns, Action.Within licence q.action
  frames : ∀ f ∈ p.stack.getD [], Action.Within licence f.action

/-- What a law of sources and one of message logs say about parsers: while there is a source things
happen to the source, and else to the message log of the parser itself. -/
inductive Says (S : Law σ) (M : Law MessageLog) (p : Parser σ) (fault : Option Fault)
    (trace : List Event) (p' : Parser σ) : Prop
  | onSource {s s' : σ} (hs : p.source = some s) (hs' : p'.source = some s')
      (hlog : p'.messages = p.messages) (h : S.Says s fault trace s') : Says S M p fault trace p'
  | alone (hnone : p.source = none) (hnone' : p'.source = none)
    (h : M.Says p.messages fault trace p'.messages) : Says S M p fault trace p'

/-- The law of a parser whose actions stay within a licence. -/
def law (licence : Script.Licence σ) (S : Law σ) (M : Law MessageLog) : Law (Parser σ) where
  Holds p := p.Within licence ∧ (∀ s, p.source = some s → S.Holds s) ∧ M.Holds p.messages
  Says := Says S M
  still p := by
    cases hs : p.source with
    | some s => exact .onSource hs hs rfl (S.still s)
    | none => exact .alone hs hs (M.still p.messages)
  chain h h' := by
    cases h with
    | onSource hs ht hlog h =>
      cases h' with
      | onSource ht' hu hlog' h' =>
        obtain rfl := Option.some.inj (ht.symm.trans ht')
        exact .onSource hs hu (hlog'.trans hlog) (S.chain h h')
      | alone hnone => exact nomatch ht.symm.trans hnone
    | alone hnone hnone' h =>
      cases h' with
      | onSource hs => exact nomatch hnone'.symm.trans hs
      | alone _ hnone'' h' => exact .alone hnone hnone'' (M.chain h h')

/-- Two laws that can be said of parsers with a licence: each source that the machine turns to
obeys the one, the message log of the parser obeys the other, and so does the work that
actions may ask for. -/
structure Lawful [TokenSource σ] (licence : Script.Licence σ) (S : Law σ)
    (M : Law MessageLog) : Prop where
  source : S.Lenient
  log : M.Lenient
  next : ∀ rounds, S.Obeyed (TokenSource.next rounds : Run σ Token)
  pushBack : ∀ token, S.Obeyed (TokenSource.pushBack token)
  error : ∀ id text place data, S.Obeyed (TokenSource.error id text place data)
  warning : ∀ id text place data, S.Obeyed (TokenSource.warning id text place data)
  records : M.Records
  work : ∀ work, licence.work work → S.Obeyed work
  fails : ∀ fault, licence.fails fault →
    (∀ s, S.Says s (some fault) [] s) ∧ ∀ log, M.Says log (some fault) [] log

variable {licence : Script.Licence σ} {S : Law σ} {M : Law MessageLog} {p p' : Parser σ}

/-- Nothing happens to the source and the message log. -/
theorem says_of_same (hsource : p'.source = p.source) (hlog : p'.messages = p.messages) :
    Says S M p none [] p' := by
  cases hs : p.source with
  | some s => exact .onSource hs (hsource.trans hs) hlog (S.still s)
  | none =>
    refine .alone hs (hsource.trans hs) ?_
    rw [hlog]
    exact M.still _

/-- What is said of a run is also said if its end differs in neither source nor message log. -/
theorem Says.of_same {p'' : Parser σ} {fault : Option Fault} {trace : List Event}
    (h : Says S M p fault trace p') (hsource : p''.source = p'.source)
    (hlog : p''.messages = p'.messages) : Says S M p fault trace p'' := by
  cases h with
  | onSource hs hs' hlog' h => exact .onSource hs (hsource.trans hs') (hlog.trans hlog') h
  | alone hnone hnone' h => exact .alone hnone (hsource.trans hnone') (hlog ▸ h)

/-- Neither the source nor the message log is touched. -/
theorem Says.unmoved {fault : Option Fault} {trace : List Event}
    (h : Says Law.unmoved Law.unmoved p fault trace p') :
    p'.source = p.source ∧ p'.messages = p.messages ∧ ∀ f, fault = some f → f.IsPlain := by
  cases h with
  | onSource hs hs' hlog h =>
    obtain ⟨rfl, hplain⟩ := h
    exact ⟨hs'.trans hs.symm, hlog, hplain⟩
  | alone hnone hnone' h => exact ⟨hnone'.trans hnone.symm, h.1, h.2⟩

/-- A change that is no matter of source and message log. -/
theorem accords_change {f : Parser σ → Parser σ} (hp : (law licence S M).Holds p)
    (hwithin : p.Within licence → (f p).Within licence) (hsource : (f p).source = p.source)
    (hlog : (f p).messages = p.messages) : Accords (law licence S M) (modify f) p := by
  obtain ⟨hactions, hsourced, hlogged⟩ := hp
  refine accords_modify ⟨hwithin hactions, ?_, ?_⟩ (says_of_same hsource hlog)
  · rw [hsource]
    exact hsourced
  · rw [hlog]
    exact hlogged

/-- A fault or an event that the laws of source and log bear. -/
theorem says_still {fault : Option Fault} {trace : List Event} (hS : ∀ s, S.Says s fault trace s)
    (hM : ∀ log, M.Says log fault trace log) : Says S M p fault trace p := by
  cases hs : p.source with
  | some s => exact .onSource hs hs rfl (hS s)
  | none => exact .alone hs hs (hM _)

/-- The law of a parser is lenient as soon as those of its source and of its log are. -/
theorem law_lenient (hS : S.Lenient) (hM : M.Lenient) : (law licence S M).Lenient where
  plain _ _ hplain := says_still (fun s => hS.plain s _ hplain) fun log => hM.plain log _ hplain
  event _ _ hevent := says_still (fun s => hS.event s _ hevent) fun log => hM.event log _ hevent

/-- Work on the source keeps the law if the work keeps the law of sources. -/
theorem accords_onSource {work : Run σ α} (hS : S.Lenient) (hM : M.Lenient) (hwork : S.Obeyed work)
    (hp : (law licence S M).Holds p) : Accords (law licence S M) (onSource work) p := by
  cases hs : p.source with
  | none =>
    have hrun : (onSource work).run p = ⟨.error .precondition, p, []⟩ := by
      simp only [Run.run, onSource, hs]
      rfl
    constructor <;> rw [hrun]
    · exact hp
    · exact (law_lenient hS hM).plain p .precondition trivial
  | some s =>
    obtain ⟨hholds, htold⟩ := hwork s (hp.2.1 s hs)
    constructor <;> rw [onSource_run hs]
    · exact ⟨⟨hp.1.rules, hp.1.frames⟩, fun _ ht => Option.some.inj ht ▸ hholds, hp.2.2⟩
    · exact .onSource hs rfl rfl htold

/-- So does work on the message log, while no source is at hand that might mind. -/
theorem accords_onMessages {work : Run MessageLog α}
    (hwork : M.Obeyed work) (hnone : p.source = none)
    (hp : (law licence S M).Holds p) : Accords (law licence S M) (onMessages work) p := by
  obtain ⟨hholds, htold⟩ := hwork p.messages hp.2.2
  exact ⟨⟨⟨hp.1.rules, hp.1.frames⟩, hp.2.1, hholds⟩, .alone hnone hnone htold⟩

-- ---------------------------------------------------------------------------
-- Changes of the grammar
-- ---------------------------------------------------------------------------

/-- A rule that is put back is known from then on, and nothing else comes in. -/
theorem mem_of_mem_putBack {r t : Rule (Action σ)}
    (h : t ∈ (p.putBack r).grammar.rules ++ (p.putBack r).former) :
    t = r ∨ t ∈ p.grammar.rules ++ p.former := by
  unfold Parser.putBack at h
  split at h
  · rcases List.mem_append.mp h with ht | ht
    · rcases Grammar.mem_put_iff.mp ht with rfl | ⟨ht, -⟩
      · exact .inl rfl
      · exact .inr (List.mem_append_left _ ht)
    · exact .inr (List.mem_append_right _ ht)
  · rcases List.mem_append.mp h with ht | ht
    · exact .inr (List.mem_append_left _ ht)
    · obtain ⟨other, hother, rfl⟩ := List.mem_map.mp ht
      split
      · exact .inl rfl
      · exact .inr (List.mem_append_right _ hother)

/-- No rule comes in when one is taken out. -/
theorem mem_of_mem_takeOut {name : String} {t : Rule (Action σ)}
    (h : t ∈ (p.takeOut name).grammar.rules ++ (p.takeOut name).former) :
    t ∈ p.grammar.rules ++ p.former := by
  rcases List.mem_append.mp h with ht | ht
  · exact List.mem_append_left _ (List.mem_filter.mp ht).1
  · rcases List.mem_append.mp ht with ht | ht
    · exact List.mem_append_left _ (List.mem_of_find?_eq_some (Option.mem_toList.mp ht))
    · exact List.mem_append_right _ ht

/-- A rule that is newly made has no pattern yet. -/
theorem mem_of_mem_putNew {name : String} {t : Rule (Action σ)}
    (h : t ∈ (p.putNew name).grammar.rules ++ (p.putNew name).former) :
    t.patterns = [] ∨ t ∈ p.grammar.rules ++ p.former := by
  rcases List.mem_append.mp h with ht | ht
  · rcases Grammar.mem_put_iff.mp ht with rfl | ⟨ht, -⟩
    · exact .inl rfl
    · exact .inr (List.mem_append_left _ ht)
  · rcases List.mem_append.mp ht with ht | ht
    · exact .inr (List.mem_append_left _ (List.mem_of_find?_eq_some (Option.mem_toList.mp ht)))
    · exact .inr (List.mem_append_right _ ht)

section Traits

variable {trait : Pattern (Action σ) → Prop}

variable (h : ∀ t ∈ p.grammar.rules ++ p.former, ∀ q ∈ t.patterns, trait q)

include h

/-- What all patterns have in common they still have when a rule is put back that has it, too. -/
theorem forall_putBack {r : Rule (Action σ)} (hr : ∀ q ∈ r.patterns, trait q) :
    ∀ t ∈ (p.putBack r).grammar.rules ++ (p.putBack r).former, ∀ q ∈ t.patterns, trait q := by
  intro t ht
  rcases mem_of_mem_putBack ht with rfl | ht
  · exact hr
  · exact h t ht

/-- And when a rule is taken out. -/
theorem forall_takeOut (name : String) :
    ∀ t ∈ (p.takeOut name).grammar.rules ++ (p.takeOut name).former, ∀ q ∈ t.patterns, trait q :=
  fun t ht => h t (mem_of_mem_takeOut ht)

/-- A new rule has no patterns yet. -/
theorem forall_putNew (name : String) :
    ∀ t ∈ (p.putNew name).grammar.rules ++ (p.putNew name).former, ∀ q ∈ t.patterns, trait q := by
  intro t ht
  rcases mem_of_mem_putNew ht with hnone | ht
  · rw [hnone]
    exact List.forall_mem_nil _
  · exact h t ht

end Traits

/-- Putting a rule back is a change of the grammar only: the stack stays. -/
theorem stack_putBack (r : Rule (Action σ)) (p : Parser σ) : (p.putBack r).stack = p.stack := by
  unfold Parser.putBack
  split <;> rfl

theorem source_putBack (r : Rule (Action σ)) (p : Parser σ) : (p.putBack r).source = p.source := by
  unfold Parser.putBack
  split <;> rfl

theorem messages_putBack (r : Rule (Action σ)) (p : Parser σ) :
    (p.putBack r).messages = p.messages := by
  unfold Parser.putBack
  split <;> rfl

/-- Reading one element of a pattern may fail with a plain fault only. -/
theorem only_read (element : Element) : Only Fault.IsPlain element.read := by
  have hparse (written : String) : Only Fault.IsPlain (Descriptor.parse written) := by
    unfold Descriptor.parse
    split
    · exact only_error trivial
    · split
      · exact only_error trivial
      · split
        · exact only_ok _
        · exact only_error trivial
      · split
        · exact only_error trivial
        · exact only_ok _
  cases element with
  | direct d => exact only_ok d
  | written raw =>
    cases raw with
    | text written => exact hparse written
    | _ => exact only_error trivial

/-- So may reading a whole pattern. -/
theorem only_ofElements (elements : List Element) (action : Option (Action σ)) :
    Only Fault.IsPlain (Pattern.ofElements elements action) :=
  only_bind (only_mapM only_read elements) fun _ => only_ok _

/-- Changing the latest pattern adds no other fault than that there is none. -/
theorem only_changeLast {f : Pattern (Action σ) → Except Fault (Pattern (Action σ))}
    (hf : ∀ q, Only Fault.IsPlain (f q)) (r : Rule (Action σ)) :
    Only Fault.IsPlain (r.changeLast f) := by
  unfold Rule.changeLast
  split
  · exact only_error trivial
  · exact only_bind (hf _) fun _ => only_ok _

/-- Remarks are refused with plain faults. -/
theorem only_remark (remark : Remark) (r : Rule (Action σ)) :
    Only Fault.IsPlain (remark.apply r) := by
  cases remark with
  | doc | also | sample => exact only_changeLast (fun _ => only_ok _) r
  | describe =>
    refine only_changeLast (fun q => ?_) r
    split
    · exact only_error trivial
    · exact only_ok _
  | arg index about =>
    refine only_changeLast (fun q => ?_) r
    unfold Pattern.setArg
    split
    · exact only_ok _
    · exact only_error trivial
  | lastShown =>
    refine only_changeLast (fun q => ?_) r
    split
    · exact only_error trivial
    · exact only_ok _
  | support level =>
    refine only_changeLast (fun q => only_bind ?_ fun _ => only_ok _) r
    unfold SupportLevel.ofName
    split
    · exact only_ok _
    · exact only_error trivial

/-- What is said about a rule is refused with a plain fault, if at all. -/
theorem only_apply (clause : Clause (Action σ)) (r : Rule (Action σ)) :
    Only Fault.IsPlain (clause.apply r) := by
  cases clause with
  | pattern elements action => exact only_bind (only_ofElements elements action) fun _ => only_ok _
  | optional | repeatable => exact only_ok _
  | remark remark => exact only_remark remark r

namespace Within

variable (hp : p.Within licence)

include hp

/-- The pattern that a frame is at has an action within the licence. -/
theorem patternOf? {key : Key} {q : Pattern (Action σ)} (h : p.patternOf? key = some q) :
    Action.Within licence q.action := by
  obtain ⟨r, hr, hq⟩ := mem_of_patternOf? h
  exact hp.rules r hr q hq

/-- The source plays no part in the licence of a parser. -/
theorem setSource (source : Option σ) : Within licence { p with source := source } :=
  ⟨hp.rules, hp.frames⟩

/-- A rule whose actions stay within the licence may be put back. -/
theorem putBack {r : Rule (Action σ)} (hr : ∀ q ∈ r.patterns, Action.Within licence q.action) :
    (p.putBack r).Within licence where
  rules := forall_putBack hp.rules hr
  frames := by
    rw [stack_putBack]
    exact hp.frames

/-- Taking a rule out leaves a parser within its licence. -/
theorem takeOut (name : String) : (p.takeOut name).Within licence :=
  ⟨forall_takeOut hp.rules name, hp.frames⟩

/-- A new rule has no actions, so it is within any licence. -/
theorem putNew (name : String) : (p.putNew name).Within licence :=
  ⟨forall_putNew hp.rules name, hp.frames⟩

end Within

/-- Putting a rule back is accounted for, as the law does not look at the grammar. -/
theorem accords_putBack {r : Rule (Action σ)}
    (hr : ∀ q ∈ r.patterns, Action.Within licence q.action)
    (hp : (law licence S M).Holds p) : Accords (law licence S M) (modify (putBack r)) p :=
  accords_change hp (fun h => h.putBack hr) (source_putBack r p) (messages_putBack r p)

section Changes

variable (hL : (law licence S M).Lenient)

include hL

/-- Looking a rule up changes nothing. -/
theorem obeyed_named (name : String) : (law licence S M).Obeyed (named name) := fun _ hp =>
  accords_get_bind (accords_orFail hL _ hp trivial)

/-- Saying more about a rule by its name is within the licence if the action that comes in is. -/
theorem obeyed_amend (name : String) {clause : Clause (Action σ)}
    (haction : Action.Within licence clause.action) :
    (law licence S M).Obeyed (amend name clause) := by
  intro p hp
  unfold amend
  refine (obeyed_named hL name p hp).bind fun r p₁ hp₁ hnamed => ?_
  obtain ⟨hfind, rfl⟩ := named_returns hnamed
  have hr := hp.1.rules r (List.mem_append_left _ (Grammar.mem_of_find?_eq_some hfind))
  refine (accords_ofExcept hL hp₁ (only_apply clause r)).bind fun r' p₂ hp₂ hr' => ?_
  exact accords_putBack (Clause.forall_apply (returns_ofExcept.mp hr').1 hr haction) hp₂

/-- A rule is taken out by its name, which has to be there. -/
theorem obeyed_dropRule (name : String) :
    (law licence S M).Obeyed (dropRule name : Run (Parser σ) Unit) := by
  intro p hp
  refine (accords_discard (obeyed_named hL name p hp)).bind fun _ p₁ hp₁ _ => ?_
  exact accords_change hp₁ (fun h => h.takeOut name) rfl rfl

/-- A rule is newly made, or refused since there is one of that name. -/
theorem obeyed_newRule (name : String) :
    (law licence S M).Obeyed (newRule name : Run (Parser σ) Unit) := by
  intro p hp
  unfold newRule
  refine accords_get_bind ?_
  split
  · exact accords_refuse hL hp
  · have hnew := hp.1.putNew name
    exact accords_set ⟨⟨hnew.rules, hnew.frames⟩, hp.2⟩ (says_of_same rfl rfl)

/-- Looking at the rule that is being declared changes nothing. -/
theorem obeyed_currentRule :
    (law licence S M).Obeyed (currentRule : Run (Parser σ) (Rule (Action σ))) := by
  intro p hp
  unfold currentRule
  refine accords_get_bind ?_
  split
  · exact accords_pure _ hp
  · exact accords_refuse hL hp

/-- The rule that is being declared may be changed in any way that keeps its actions within the
licence. -/
theorem obeyed_changeCurrent {f : Rule (Action σ) → Except Fault (Rule (Action σ))}
    (hplain : ∀ r, Only Fault.IsPlain (f r))
    (hkeeps : ∀ r r', f r = .ok r' → (∀ q ∈ r.patterns, Action.Within licence q.action) →
      ∀ q ∈ r'.patterns, Action.Within licence q.action) :
    (law licence S M).Obeyed (changeCurrent f) := by
  intro p hp
  unfold changeCurrent
  refine (obeyed_currentRule hL p hp).bind fun r p₁ hp₁ hcurrent => ?_
  obtain ⟨hr, rfl⟩ := currentRule_returns hcurrent
  refine (accords_ofExcept hL hp₁ (hplain r)).bind fun r' p₂ hp₂ hr' => ?_
  exact accords_putBack
    (hkeeps r r' (returns_ofExcept.mp hr').1 (hp.1.rules r (mem_of_rule? hr))) hp₂

/-- So it is with changes that cannot fail. -/
theorem obeyed_reshapeCurrent {f : Rule (Action σ) → Rule (Action σ)}
    (hkeeps : ∀ r, (∀ q ∈ r.patterns, Action.Within licence q.action) →
      ∀ q ∈ (f r).patterns, Action.Within licence q.action) :
    (law licence S M).Obeyed (reshapeCurrent f) := by
  intro p hp
  have hchange : (law licence S M).Obeyed (changeCurrent fun r => .ok (f r)) :=
    obeyed_changeCurrent hL (fun _ => only_ok _) fun r _ hr' hr => Except.ok.inj hr' ▸ hkeeps r hr
  exact (hchange p hp).bind fun _ p₁ hp₁ _ =>
    accords_change hp₁ (fun h => ⟨h.rules, h.frames⟩) rfl rfl

/-- Saying one thing about the rule that is being declared. -/
theorem obeyed_declare {clause : Clause (Action σ)}
    (haction : Action.Within licence clause.action) :
    (law licence S M).Obeyed (declare clause) := by
  have hkeeps (r r' : Rule (Action σ)) (h : clause.apply r = .ok r') :
      (∀ q ∈ r.patterns, Action.Within licence q.action) →
      ∀ q ∈ r'.patterns, Action.Within licence q.action :=
    fun hr => Clause.forall_apply h hr haction
  cases clause with
  | pattern elements action =>
    refine fun p hp => accords_discard ?_
    unfold pattern
    refine (accords_ofExcept hL hp (only_ofElements _ _)).bind fun new p₁ hp₁ hnew => ?_
    have hadd (r : Rule (Action σ)) :=
      hkeeps r _ (bind_eq_ok.mpr ⟨new, (returns_ofExcept.mp hnew).1, rfl⟩)
    exact (obeyed_reshapeCurrent hL hadd p₁ hp₁).bind fun _ p₂ hp₂ _ => accords_pure _ hp₂
  | optional | repeatable => exact obeyed_reshapeCurrent hL fun r => hkeeps r _ rfl
  | remark remark => exact obeyed_changeCurrent hL (only_remark remark) hkeeps

/-- Declaring a rule with all that is said about it. -/
theorem obeyed_declareRule (name : String) {clauses : List (Clause (Action σ))}
    (hactions : ∀ clause ∈ clauses, Action.Within licence clause.action) :
    (law licence S M).Obeyed (declareRule name clauses) := by
  have hclauses : (law licence S M).Obeyed (clauses.forM declare) :=
    obeyed_forM fun clause hclause => obeyed_declare hL (hactions clause hclause)
  intro p hp
  unfold declareRule withRule
  refine accords_get_bind (accords_thenAlways ?_ ?_ ?_)
  · exact (obeyed_newRule hL name p hp).bind fun _ p₁ hp₁ _ => hclauses p₁ hp₁
  · exact fun p hp => ⟨⟨hp.1.rules, hp.1.frames⟩, hp.2⟩
  · exact fun _ _ _ h => h.of_same rfl rfl

-- ---------------------------------------------------------------------------
-- The table
-- ---------------------------------------------------------------------------

omit hL in
/-- A rule is refused by the checks with plain faults. -/
theorem only_checkRule (p : Parser σ) (r : Rule (Action σ)) :
    Only Fault.IsPlain (p.checkRule r) := by
  have helement (d : Descriptor) : Only Fault.IsPlain (p.checkElement r.name d) := by
    unfold checkElement
    split
    · split
      · exact only_ok ()
      · exact only_error trivial
    · split
      · exact only_ok ()
      · exact only_error trivial
    all_goals exact only_ok ()
  unfold checkRule
  split
  · exact only_error trivial
  · exact only_forM (fun q => only_forM helement q.tokens) r.patterns

omit hL in
/-- Frames keep their actions when they move to another table. -/
theorem restore_actions (table : Table) (frames : List (Frame σ)) :
    (restore table frames).1.map Frame.action = frames.map Frame.action := by
  induction frames with
  | nil => rfl
  | cons f rest ih =>
    unfold restore
    split
    · exact congrArg (f.action :: ·) ih
    · rfl

omit hL in
/-- The frames found again in rebuilt tables have the actions that they had. -/
theorem exists_action_of_mem_restore {table : Table} {frames : List (Frame σ)} {f : Frame σ}
    (hf : f ∈ (restore table frames.reverse).1.reverse) : ∃ f' ∈ frames, f'.action = f.action := by
  have hmem : f.action ∈ (restore table frames.reverse).1.map Frame.action :=
    List.mem_map_of_mem (List.mem_reverse.mp hf)
  rw [restore_actions] at hmem
  obtain ⟨f', hf', heq⟩ := List.mem_map.mp hmem
  exact ⟨f', List.mem_reverse.mp hf', heq⟩

/-- A grammar whose references all name rules is compiled, or it is ambiguous. -/
theorem accords_compileTable (hclosed : p.grammar.Closed) (hmemo : p.memo = [])
    (hp : (law licence S M).Holds p) : Accords (law licence S M) compileTable p := by
  have htrace := Grammar.compile_trace hclosed
  have htold : (law licence S M).Says p (faultOf? (p.grammar.compile.run []).result)
      (p.grammar.compile.run []).trace p := by
    rcases Grammar.compile_cases hclosed with ⟨s, e, t, hambiguous, -⟩ | ⟨table, hok, -⟩
    · rw [hambiguous] at htrace ⊢
      rw [htrace]
      exact hL.plain p _ trivial
    · rw [hok] at htrace ⊢
      rw [htrace]
      exact hL.event p _ rfl
  rw [← hmemo] at htold
  unfold compileTable
  exact accords_get_bind ⟨⟨⟨hp.1.rules, hp.1.frames⟩, hp.2⟩, htold.of_same rfl rfl⟩

/-- **Rebuilding the tables.** It reports nothing, and the actions on the stack are the same after
it. -/
theorem obeyed_updateTable : (law licence S M).Obeyed (updateTable : Run (Parser σ) Unit) := by
  intro p hp
  unfold updateTable
  refine (accords_change hp (fun h => ⟨h.rules, h.frames⟩) rfl rfl).bind fun _ q hq hmemo => ?_
  replace hmemo : q.memo = [] := by rw [← returns_modify.mp hmemo]
  refine accords_get_bind
    ((accords_ofExcept hL hq (only_forM q.only_checkRule _)).bind fun _ q' hq' hcheck => ?_)
  obtain ⟨hchecked, rfl⟩ := returns_ofExcept.mp hcheck
  refine (accords_compileTable hL (closed_of_checked hchecked) hmemo hq).bind fun table r hr _ => ?_
  refine (accords_change hr (fun h => ⟨h.rules, h.frames⟩) rfl rfl).bind fun _ r' hr' _ => ?_
  -- from here on it is only the frames of the state looked at that matter
  cases hstack : q.stack with
  | none => exact accords_pure () hr'
  | some stack =>
    have hframes : ∀ f ∈ stack, Action.Within licence f.action := by
      have hall := hq.1.frames
      rw [hstack] at hall
      exact hall
    refine Accords.bind (accords_change hr' (fun h => ⟨h.rules, fun f hf => ?_⟩) rfl rfl)
      fun _ r'' hr'' _ => ?_
    · obtain ⟨f', hf', heq⟩ := exists_action_of_mem_restore hf
      rw [← heq]
      exact hframes f' hf'
    · split
      · exact accords_refuse hL hr''
      · exact accords_pure () hr''

/-- Whether the table has to be rebuilt first or not. -/
theorem obeyed_prepare (rule : String) :
    (law licence S M).Obeyed (prepare rule : Run (Parser σ) _) := by
  intro p hp
  unfold prepare
  refine accords_get_bind ?_
  split
  · exact accords_refuse hL hp
  · dsimp only
    split
    · exact (obeyed_updateTable hL p hp).bind fun _ _ hp' _ => accords_pure _ hp'
    · exact accords_pure _ hp

-- ---------------------------------------------------------------------------
-- Frames
-- ---------------------------------------------------------------------------

omit hL in
/-- Filling in the values of a complete pattern fails plainly. -/
theorem only_completed (g : Grammar (Action σ)) (tokens : List Descriptor) (values : List Value) :
    Only Fault.IsPlain (completed g tokens values) := by
  have hfilled (d : Descriptor) (v : Value) : Only Fault.IsPlain (filled g d v) := by
    unfold filled
    split
    · split
      · exact only_ok _
      · exact only_error trivial
    · exact only_ok _
  induction tokens generalizing values with
  | nil => exact only_ok _
  | cons d tokens ih =>
    cases values with
    | nil => exact only_ok _
    | cons v values =>
      exact only_bind (hfilled d v) fun _ => only_bind (ih values) fun _ => only_ok _

omit hL in
/-- The frames may be looked at. -/
theorem accords_frames {k : List (Frame σ) → Run (Parser σ) α}
    (h : Accords (law licence S M) (k (p.stack.getD [])) p) :
    Accords (law licence S M) (frames >>= k) p := by
  unfold frames
  rw [bind_assoc]
  refine accords_get_bind ?_
  rw [pure_bind]
  exact h

omit hL in
/-- Frames with actions within the licence may take the place of those that there are. -/
theorem accords_setFrames {fs : List (Frame σ)} (h : ∀ f ∈ fs, Action.Within licence f.action)
    (hp : (law licence S M).Holds p) : Accords (law licence S M) (setFrames fs) p :=
  accords_change hp (fun hwithin => ⟨hwithin.rules, h⟩) rfl rfl

/-- The innermost frame may change, if it keeps its action. -/
theorem accords_changeTop {f : Frame σ → Frame σ} (hf : ∀ frame, (f frame).action = frame.action)
    (hp : (law licence S M).Holds p) : Accords (law licence S M) (changeTop f) p := by
  unfold changeTop
  refine accords_frames ?_
  split
  · next top below hstack =>
    have hframes := hp.1.frames
    rw [hstack] at hframes
    obtain ⟨htop, hbelow⟩ := List.forall_mem_cons.mp hframes
    exact accords_setFrames (List.forall_mem_cons.mpr ⟨hf top ▸ htop, hbelow⟩) hp
  · exact accords_fail hp (hL.plain p _ trivial)

omit hL in
/-- Looking at the keys of the innermost frame is no step of its own. -/
theorem accords_topKeys {k : List Key → Run (Parser σ) α}
    (h : ∀ keys, Accords (law licence S M) (k keys) p) :
    Accords (law licence S M) (topKeys >>= k) p := by
  unfold topKeys
  rw [bind_assoc]
  refine accords_frames ?_
  rw [pure_bind]
  exact h _

/-- Nor is looking up where the parse stands. -/
theorem obeyed_topSite : (law licence S M).Obeyed (topSite : Run (Parser σ) Site) := by
  intro p hp
  unfold topSite
  refine accords_frames ?_
  split
  · exact accords_pure _ hp
  · exact accords_fail hp (hL.plain p _ trivial)

/-- A token is put into its slot in accord with laws that bear all events. -/
theorem obeyed_deposit (hS : ∀ s event, S.Says s none [event] s)
    (hM : ∀ log event, M.Says log none [event] log) (t : Transition) (token : Token) :
    (law licence S M).Obeyed (deposit t token : Run (Parser σ) Unit) := by
  intro p hp
  unfold deposit
  refine (accords_changeTop hL (fun _ => by rfl) hp).bind fun _ p₁ hp₁ _ =>
    accords_topKeys fun _ => ?_
  exact ⟨hp₁, says_still (fun s => hS s _) fun log => hM log _⟩

end Changes

-- ---------------------------------------------------------------------------
-- Reports and actions
-- ---------------------------------------------------------------------------

section Machine

variable [TokenSource σ] (h : Lawful licence S M)

include h

/-- A lawful pair of laws makes a lenient law of the parser. -/
theorem Lawful.lenient : (law licence S M).Lenient := law_lenient h.source h.log

/-- An error is reported by the source where there is one, and otherwise by the parser itself. -/
theorem obeyed_error (id text : String) (position : Option Position) (data : Payload) :
    (law licence S M).Obeyed (error id text position data : Run (Parser σ) α) := by
  intro p hp
  unfold error
  refine accords_get_bind ?_
  dsimp only
  split
  · refine (accords_onSource h.source h.log (h.error _ _ _ _) hp).bind fun never => nomatch never
  · next hnone =>
    have hnone : p.source = none := by simpa using hnone
    exact accords_onMessages (h.records.error _ _ _ _ _ _) hnone hp

/-- And so is a warning. -/
theorem obeyed_warning (id text : String) (position : Option Position) (data : Payload) :
    (law licence S M).Obeyed (warning id text position data : Run (Parser σ) Unit) := by
  intro p hp
  unfold warning
  refine accords_get_bind ?_
  dsimp only
  split
  · exact accords_onSource h.source h.log (h.warning _ _ _ _) hp
  · next hnone =>
    have hnone : p.source = none := by simpa using hnone
    exact accords_discard (accords_onMessages (h.records.add _) hnone hp)

/-- **Scripts** within a licence are carried out in accord with the law. -/
theorem obeyed_perform {script : Script σ} (hscript : script.Within licence) :
    (law licence S M).Obeyed (perform script) := by
  have hL := h.lenient
  induction hscript with
  | source hwork _ ih =>
    exact fun p hp =>
      (accords_onSource h.source h.log (h.work _ hwork) hp).bind fun v p' hp' _ => ih v p' hp'
  | here _ ih => exact fun p hp => accords_get_bind (ih _ p hp)
  | slots _ ih => exact fun p hp => accords_get_bind (ih _ _ p hp)
  | error id text position data => exact obeyed_error h id text position data
  | warning id text position data _ ih =>
    exact fun p hp => (obeyed_warning h id text position data p hp).bind fun _ p' hp' _ => ih p' hp'
  | limit kinds _ ih =>
    refine fun p hp => Accords.bind (accords_change hp (fun h => ⟨h.rules, h.frames⟩) rfl rfl) ?_
    exact fun _ p' hp' _ => ih p' hp'
  | amend rule haction _ _ ih =>
    exact fun p hp => (obeyed_amend hL rule haction p hp).bind fun _ p' hp' _ => ih p' hp'
  | dropRule rule _ _ ih =>
    exact fun p hp => (obeyed_dropRule hL rule p hp).bind fun _ p' hp' _ => ih p' hp'
  | declareRule rule hactions _ _ ih =>
    exact fun p hp => (obeyed_declareRule hL rule hactions p hp).bind fun _ p' hp' _ => ih p' hp'
  | rebuild _ ih => exact fun p hp => (obeyed_updateTable hL p hp).bind fun _ p' hp' _ => ih p' hp'
  | fail hfault =>
    exact fun p hp => accords_fail hp (says_still (h.fails _ hfault).1 (h.fails _ hfault).2)
  | done value => exact fun p hp => accords_pure value hp

-- ---------------------------------------------------------------------------
-- The machine
-- ---------------------------------------------------------------------------

/-- The next token is asked of the source. -/
theorem obeyed_nextToken (rounds : Nat) :
    (law licence S M).Obeyed (nextToken rounds : Run (Parser σ) Token) := by
  intro p hp
  unfold nextToken
  refine (accords_onSource h.source h.log (h.next rounds) hp).bind fun token p' hp' _ =>
    accords_get_bind ?_
  split
  · exact obeyed_error h _ _ _ _ p' hp'
  · exact accords_pure token hp'

/-- A token is given back to the source. -/
theorem obeyed_giveBack (token : Option Token) :
    (law licence S M).Obeyed (giveBack token : Run (Parser σ) Unit) := by
  intro p hp
  cases token with
  | none => exact accords_pure () hp
  | some token => exact accords_onSource h.source h.log (h.pushBack token) hp

/-- A frame gets the action of its pattern, which is within the licence. -/
theorem obeyed_pushFrame (site : Site) (token : Token) :
    (law licence S M).Obeyed (pushFrame site token : Run (Parser σ) Unit) := by
  have hpush {q : Pattern (Action σ)} (hq : Action.Within licence q.action) :
      (law licence S M).Obeyed (do
          setFrames ({ site := site, action := q.action, first := token.position } :: (← frames)) :
        Run (Parser σ) Unit) := fun p hp =>
    accords_frames (accords_setFrames (List.forall_mem_cons.mpr ⟨hq, hp.1.frames⟩) hp)
  intro p hp
  unfold pushFrame
  refine accords_get_bind ?_
  split
  · exact accords_fail hp (h.lenient.plain p _ trivial)
  · next q hq =>
    have hq' := hp.1.patternOf? hq
    dsimp only
    split
    · exact (obeyed_warning h _ _ _ _ p hp).bind fun _ p' hp' _ => hpush hq' p' hp'
    · exact (obeyed_error h _ _ _ _ p hp).bind fun _ p' hp' _ => hpush hq' p' hp'
    all_goals exact hpush hq' p hp

/-- To follow a transition is to change the innermost frame. -/
theorem obeyed_follow (site : Site) (key : Key) :
    (law licence S M).Obeyed (follow site key : Run (Parser σ) Site) :=
  fun _ hp => accords_orFail h.lenient _ hp trivial

/-- Patterns whose first elements were passed over are entered one inside the other. -/
theorem obeyed_enterSkipped (site : Site) (token : Token) (moves : Bool) (skipped : List Key) :
    (law licence S M).Obeyed (enterSkipped site token moves skipped : Run (Parser σ) Unit) := by
  induction skipped generalizing moves with
  | nil => exact fun p hp => accords_pure () hp
  | cons key rest ih =>
    intro p hp
    unfold enterSkipped
    refine (obeyed_follow h site key p hp).bind fun next p₁ hp₁ _ => ?_
    dsimp only
    split
    · exact (accords_changeTop h.lenient (fun _ => by rfl) hp₁).bind fun _ p₂ hp₂ _ =>
        ih false p₂ hp₂
    · exact (obeyed_pushFrame h next token p₁ hp₁).bind fun _ p₂ hp₂ _ => ih false p₂ hp₂

/-- A token is shifted in accord with a law that bears that one is put into its slot. -/
theorem obeyed_shift (site : Site) (t : Transition) (token : Token)
    (hdeposit : (law licence S M).Obeyed (deposit t token)) :
    (law licence S M).Obeyed (shift site t token : Run (Parser σ) Site) := by
  intro p hp
  rw [shift_eq]
  refine (obeyed_enterSkipped h _ _ _ _ p hp).bind fun _ p₁ hp₁ _ => ?_
  exact (hdeposit p₁ hp₁).bind fun _ p₂ hp₂ _ => obeyed_follow h site t.target p₂ hp₂

/-- Calling an action is carrying out its script, which is within the licence. -/
theorem obeyed_callAction {frame : Frame σ} (hframe : Action.Within licence frame.action)
    (values : List Value) (positions : List (Option Position)) :
    (law licence S M).Obeyed (callAction frame values positions : Run (Parser σ) Value) := by
  intro p hp
  unfold callAction
  split
  · exact accords_pure _ hp
  · next action haction =>
    refine Accords.bind (accords_change hp (fun h => ⟨h.rules, h.frames⟩) rfl rfl) fun _ p₁ hp₁ _ =>
      ?_
    refine accords_thenAlways (obeyed_perform h (hframe action haction values) p₁ hp₁) ?_ ?_
    · exact fun p hp => ⟨⟨hp.1.rules, hp.1.frames⟩, hp.2⟩
    · exact fun _ _ _ htold => htold.of_same rfl rfl

/-- Reducing calls the action and fills a slot of the frame below. -/
theorem obeyed_reduce {frame : Frame σ} (hframe : Action.Within licence frame.action) :
    (law licence S M).Obeyed (reduce frame : Run (Parser σ) Unit) := by
  intro p hp
  have hL := h.lenient
  unfold reduce
  dsimp only
  split
  · exact accords_fail hp (hL.plain p _ trivial)
  · refine accords_get_bind
      ((accords_ofExcept hL hp (only_completed p.grammar _ _)).bind fun values p₁ hp₁ _ => ?_)
    refine (obeyed_callAction h hframe _ _ p₁ hp₁).bind fun result p₂ hp₂ _ => ?_
    refine accords_get_bind ((accords_changeTop hL (fun _ => by rfl) hp₂).bind fun _ p₃ hp₃ _ => ?_)
    exact accords_topKeys fun _ => accords_emit hL hp₃ rfl

/-- At the end of a parse only the end of the input may be left. -/
theorem obeyed_expectEnd (rounds : Nat) :
    (law licence S M).Obeyed (expectEnd rounds : Run (Parser σ) Unit) := by
  intro p hp
  unfold expectEnd
  refine (obeyed_nextToken h rounds p hp).bind fun token p' hp' _ => ?_
  split
  · exact accords_pure () hp'
  · exact obeyed_error h _ _ _ _ p' hp'

/-- Finishing reduces the innermost frame, or it ends the parse. -/
theorem obeyed_finish (rounds : Nat) (token : Option Token) :
    (law licence S M).Obeyed (finish rounds token : Run (Parser σ) Bool) := by
  intro p hp
  unfold finish
  refine (obeyed_giveBack h token p hp).bind fun _ p₁ hp₁ _ => accords_frames ?_
  have hframes := hp₁.1.frames
  split
  · exact accords_fail hp₁ (h.lenient.plain p₁ _ trivial)
  · next root hstack =>
    rw [hstack] at hframes
    refine (accords_setFrames (by simp) hp₁).bind fun _ p₂ hp₂ _ => ?_
    refine (obeyed_expectEnd h rounds p₂ hp₂).bind fun _ p₃ hp₃ _ => ?_
    exact (accords_setFrames hframes hp₃).bind fun _ p₄ hp₄ _ => accords_pure true hp₄
  · next frame below _ hstack =>
    rw [hstack] at hframes
    obtain ⟨hframe, hbelow⟩ := List.forall_mem_cons.mp hframes
    refine (accords_setFrames hbelow hp₁).bind fun _ p₂ hp₂ _ => ?_
    exact (obeyed_reduce h hframe p₂ hp₂).bind fun _ p₃ hp₃ _ => accords_pure false hp₃

/-- Settling reduces frames until a transition is there, one at a time. -/
theorem obeyed_settle (rounds : Nat) (site : Site) (token : Option Token) :
    (law licence S M).Obeyed (settle rounds site token : Run (Parser σ) (Site ⊕ Unit)) := by
  intro p hp
  have hL := h.lenient
  have hon : (law licence S M).Obeyed (topSite >>= fun site =>
      pure (.inl site) : Run (Parser σ) (Site ⊕ Unit)) :=
    fun p hp => (obeyed_topSite hL p hp).bind fun _ _ hp' _ => accords_pure _ hp'
  unfold settle
  split
  · cases token with
    | none =>
      exact (obeyed_nextToken h rounds p hp).bind fun found p₁ hp₁ _ =>
        obeyed_error h _ _ _ _ p₁ hp₁
    | some token =>
      exact (accords_pure token hp).bind fun found p₁ hp₁ _ => obeyed_error h _ _ _ _ p₁ hp₁
  · refine (obeyed_finish h rounds token p hp).bind fun done p₁ hp₁ _ => ?_
    split
    · exact accords_pure _ hp₁
    · refine accords_frames ?_
      split
      · refine (obeyed_finish h rounds none p₁ hp₁).bind fun done p₂ hp₂ _ => ?_
        split
        · exact accords_pure _ hp₂
        · exact hon p₂ hp₂
      · exact hon p₁ hp₁

/-- What a parse does once the source is in its place. -/
def parseFrom (rounds : Nat) (rule : String) (r : Rule (Action σ)) : Run (Parser σ) Value := do
  let table := (← Run.get).table
  match table.find? ⟨r.id, none, 0⟩ with
  | none => Run.refuse (.noStartState rule)
  | some state =>
    let start : Site := ⟨table, state⟩
    setFrames [{ site := start, action := none }]
    Run.iterate (round rounds) rounds start
    match (← frames).getLast? with
    | none => Run.fail .outOfRange
    | some root =>
      let several := (← Run.get).repeats r.id r.repeatable
      pure (root.values.head?.getD (if several then .series [] else .nothing))

omit h in
/-- A parse is prepared, then it is given its source, and then it runs. -/
theorem parse_eq (rounds : Nat) (rule : String) (source : σ) :
    parse rounds rule source = prepare rule >>= fun r =>
      modify (fun p => { p with source := some source }) >>= fun _ => parseFrom rounds rule r :=
  rfl

section Shifting

variable (hdeposit : ∀ t token, (law licence S M).Obeyed (deposit t token))

include hdeposit

/-- Proceeding with a token follows a transition or settles first. -/
theorem obeyed_proceed (rounds : Nat) (site : Site) (token : Token) :
    (law licence S M).Obeyed (proceed rounds site token : Run (Parser σ) (Site ⊕ Unit)) := by
  intro p hp
  unfold proceed
  refine accords_get_bind ?_
  split
  · next t _ =>
    exact (obeyed_shift h site t token (hdeposit t token) p hp).bind fun _ _ hp' _ =>
      accords_pure _ hp'
  · exact obeyed_settle h rounds site _ p hp

/-- **Rounds.** One round of the machine keeps the law. -/
theorem obeyed_round (rounds : Nat) (site : Site) :
    (law licence S M).Obeyed (round rounds site : Run (Parser σ) (Site ⊕ Unit)) := by
  intro p hp
  have hL := h.lenient
  unfold round
  split
  · exact obeyed_settle h rounds site none p hp
  · refine (obeyed_nextToken h rounds p hp).bind fun token p₁ hp₁ _ => accords_get_bind ?_
    split
    · next t _ =>
      split
      · refine (accords_emit hL hp₁ rfl).bind fun _ p₂ hp₂ _ => ?_
        refine (accords_discard (obeyed_finish h rounds _ p₂ hp₂)).bind fun _ p₃ hp₃ _ =>
          accords_get_bind ?_
        refine (obeyed_nextToken h rounds p₃ hp₃).bind fun token' p₄ hp₄ _ => ?_
        exact obeyed_proceed h hdeposit rounds _ token' p₄ hp₄
      · exact (obeyed_shift h site t token (hdeposit t token) p₁ hp₁).bind fun _ _ hp' _ =>
          accords_pure _ hp'
    · exact obeyed_settle h rounds site _ p₁ hp₁

/-- A parse that is cut off is accounted for like any other fault, if both laws allow for it. -/
theorem obeyed_parseFrom (hcut : ∀ s, S.Says s (some .exhausted) [] s)
    (hcutLog : ∀ log, M.Says log (some .exhausted) [] log) (rounds : Nat) (rule : String)
    (r : Rule (Action σ)) :
    (law licence S M).Obeyed (parseFrom rounds rule r : Run (Parser σ) Value) := by
  intro p hp
  have hL := h.lenient
  unfold parseFrom
  refine accords_get_bind ?_
  dsimp only
  split
  · exact accords_refuse hL hp
  · refine (accords_setFrames (List.forall_mem_singleton.mpr Action.within_none) hp).bind
      fun _ p₁ hp₁ _ => ?_
    refine Accords.bind (accords_iterate (fun p => says_still hcut hcutLog)
      (obeyed_round h hdeposit rounds) _ _ hp₁) ?_
    refine fun _ p₂ hp₂ _ => accords_frames ?_
    split
    · exact accords_fail hp₂ (hL.plain p₂ _ trivial)
    · exact accords_get_bind (accords_pure _ hp₂)

/-- **A whole parse.** Either nothing happens but that the grammar is refused, or all that
happens happens to the source that is parsed. In any case a law that this source obeys says
what comes of it. -/
theorem parse_told (hcut : ∀ s, S.Says s (some .exhausted) [] s)
    (hcutLog : ∀ log, M.Says log (some .exhausted) [] log) (rounds : Nat) (rule : String) {s : σ}
    (hp : (law licence S M).Holds p) (hs : S.Holds s) :
    (law licence S M).Holds ((parse rounds rule s).run p).state ∧
      ((parse rounds rule s).run p).state.messages = p.messages ∧
      ∃ s' trace, S.Says s (faultOf? ((parse rounds rule s).run p).result) trace s' ∧
        (((parse rounds rule s).run p).state.source = some s' ∨
          s' = s ∧ ((parse rounds rule s).run p).state.source = p.source) := by
  have hprepared := (obeyed_prepare h.lenient rule p hp).holds
  have hlenient : (law licence Law.unmoved Law.unmoved).Lenient :=
    law_lenient lenient_unmoved lenient_unmoved
  have hunmoved := obeyed_prepare hlenient rule p ⟨hp.1, fun _ _ => trivial, trivial⟩
  obtain ⟨hsame, hlog, hplain⟩ := hunmoved.told.unmoved
  rw [parse_eq, run_bind]
  rcases hrun : (prepare rule).run p with ⟨fault | r, q, trace⟩
  all_goals
    rw [hrun] at hprepared hsame hlog hplain
  · exact ⟨hprepared, hlog, s, [], h.source.plain s fault (hplain fault rfl), .inr ⟨rfl, hsame⟩⟩
  · have hq : (law licence S M).Holds { q with source := some s } :=
      ⟨hprepared.1.setSource (some s), fun _ hs' => Option.some.inj hs' ▸ hs, hprepared.2.2⟩
    obtain ⟨hholds, htold⟩ := obeyed_parseFrom h hdeposit hcut hcutLog rounds rule r _ hq
    refine ⟨hholds, ?_⟩
    cases htold with
    | onSource hs' hs'' hlog' htold =>
      obtain rfl := Option.some.inj hs'
      exact ⟨hlog'.trans hlog, _, _, htold, .inl hs''⟩
    | alone hnone => cases hnone

end Shifting

end Machine

-- ---------------------------------------------------------------------------
-- The licence itself
-- ---------------------------------------------------------------------------

/-- Without laws of the source and of the log, the law of the parser is the licence of its
actions. -/
theorem Within.holds (hp : p.Within licence) : (law licence Law.nothing Law.nothing).Holds p :=
  ⟨hp, fun _ _ => trivial, trivial⟩

/-- After a run that obeys the law of saying nothing, actions stay within their licence. -/
theorem Within.of_obeyed {x : Run (Parser σ) α} {a : α} (hp : p.Within licence)
    (hx : (law licence Law.nothing Law.nothing).Obeyed x) (h : x.Returns p a p') :
    p'.Within licence := by
  have hholds := (hx p hp.holds).holds
  obtain ⟨trace, hrun⟩ := h
  rw [hrun] at hholds
  exact hholds.1

/-- Where nothing is said of source and message log, what is left to say is that actions stay
within a licence. -/
theorem lawful_nothing [TokenSource σ] : Lawful licence (Law.nothing : Law σ) Law.nothing where
  source := lenient_nothing
  log := lenient_nothing
  next _ := obeyed_nothing _
  pushBack _ := obeyed_nothing _
  error _ _ _ _ := obeyed_nothing _
  warning _ _ _ _ := obeyed_nothing _
  records _ _ _ := ⟨trivial, trivial⟩
  work _ _ := obeyed_nothing _
  fails _ _ := ⟨fun _ => trivial, fun _ => trivial⟩

/-- Once a frame is completed all actions stay within the licence. -/
theorem Within.finish [TokenSource σ] {rounds : Nat} {token : Option Token} {done : Bool}
    (hp : p.Within licence) (h : (finish rounds token).Returns p done p') : p'.Within licence :=
  hp.of_obeyed (obeyed_finish lawful_nothing rounds token) h

/-- **After a round** all actions stay within the licence again. -/
theorem Within.round [TokenSource σ] {rounds : Nat} {site : Site} {next : Site ⊕ Unit}
    (hp : p.Within licence) (h : (round rounds site).Returns p next p') : p'.Within licence := by
  refine hp.of_obeyed (obeyed_round lawful_nothing ?_ rounds site) h
  exact obeyed_deposit (law_lenient lenient_nothing lenient_nothing) (fun _ _ => trivial) fun _ _ =>
    trivial

end Parser

end GrammarEngine
