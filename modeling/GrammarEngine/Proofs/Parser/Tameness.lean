import GrammarEngine.Proofs.Parser.Licence
import GrammarEngine.Proofs.Scanner.Reticence

/-!
# Parsers that leave pushing back to the machine

An action may work on the source of tokens, change the grammar and rebuild the tables, so what an
action does to the source may come up anywhere in a parse. An action is tame if the work that it
asks for keeps a property of the source and pushes no second token back, and if the actions that it
adds to the grammar are tame as well. A parser is tame if the actions of its rules and of the frames
of its stack are.

Then all that the machine does, apart from pushing tokens back, keeps the parser tame and the
property of the source true. This is shown here function by function. A source is courteous if it
can take a token back whenever the last thing it did was to deliver one; where the machine pushes
back, the matter is one of order, and of another module.

Main results:

* `docile_perform` — carrying out a tame script.
* `docile_updateTable` — tables may be rebuilt while a parse is under way; frames keep
  their actions.
* `empty_of_nextToken` — behind a token that was read nothing is pushed back.
* `docile_shift`, `docile_reduce`, `docile_expectEnd` — the steps of the machine.
-/

namespace GrammarEngine

open Run

variable {σ α : Type} {inv : σ → Prop}

/-- A script that only asks for polite work on the source, as do the actions that it adds
to the grammar. -/
inductive Script.Tame (inv : σ → Prop) : Script σ → Prop
  | source {work : Run σ Value} {rest : Value → Script σ} (hwork : Polite inv work)
    (hrest : ∀ v, (rest v).Tame inv) : Tame inv (.source work rest)
  | here {rest : Option Position → Script σ}
      (hrest : ∀ place, (rest place).Tame inv) : Tame inv (.here rest)
  | slots {rest : List Value → List (Option Position) → Script σ}
    (hrest : ∀ values positions, (rest values positions).Tame inv) : Tame inv (.slots rest)
  | error (id text : String) (position : Option Position) (data : Payload) :
      Tame inv (.error id text position data)
  | warning (id text : String) (position : Option Position) (data : Payload) {rest : Script σ}
    (hrest : rest.Tame inv) : Tame inv (.warning id text position data rest)
  | limit (kinds : List String) {rest : Script σ} (hrest : rest.Tame inv) :
      Tame inv (.limit kinds rest)
  | amend (rule : String) {clause : Clause (List Value → Script σ)} {rest : Script σ}
    (haction : ∀ a, clause.action = some a → ∀ values, (a values).Tame inv)
      (hrest : rest.Tame inv) : Tame inv (.amend rule clause rest)
  | dropRule (rule : String) {rest : Script σ} (hrest : rest.Tame inv) :
      Tame inv (.dropRule rule rest)
  | declareRule (rule : String) {clauses : List (Clause (List Value → Script σ))} {rest : Script σ}
    (hactions : ∀ clause ∈ clauses, ∀ a, clause.action = some a → ∀ values, (a values).Tame inv)
    (hrest : rest.Tame inv) : Tame inv (.declareRule rule clauses rest)
  | rebuild {rest : Script σ} (hrest : rest.Tame inv) : Tame inv (.rebuild rest)
  | fail {fault : Fault} (h : fault.IsMild) : Tame inv (.fail fault)
  | done (value : Value) : Tame inv (.done value)

/-- An action all of whose scripts are tame; without an action nothing is done. -/
def Action.Tame (inv : σ → Prop) (action : Option (Action σ)) : Prop :=
  ∀ a, action = some a → ∀ values, (a values).Tame inv

/-- Where there is no action, there is nothing to be tame. -/
theorem Action.tame_none : Action.Tame inv none := nofun

/-- A source that keeps a property, and takes a token back if it has delivered one just before. -/
structure TokenSource.Courteous [TokenSource σ] (inv empty : σ → Prop) : Prop where
  next : ∀ rounds, Polite inv (TokenSource.next rounds : Run σ Token)
  empties : ∀ {rounds s token t}, inv s → (TokenSource.next rounds).Returns s token t → empty t
  pushBack : ∀ {token s}, inv s → empty s →
    (TokenSource.pushBack token).Leaves s fun r t => inv t ∧ Harmless r
  error : ∀ id text position data,
    Polite inv (TokenSource.error id text position data : Run σ Empty)
  warning : ∀ id text position data,
    Polite inv (TokenSource.warning id text position data : Run σ Unit)

namespace Parser

/-- A parser the actions of whose rules are tame. While a parse is under way, those of the frames
are as well, and the source has the property. What is left of an earlier parse does not matter. -/
structure Tame (inv : σ → Prop) (underWay : Prop) (p : Parser σ) : Prop where
  rules : ∀ r ∈ p.grammar.rules ++ p.former, ∀ q ∈ r.patterns, Action.Tame inv q.action
  frames : underWay → ∀ frame ∈ p.stack.getD [], Action.Tame inv frame.action
  source : underWay → ∀ s, p.source = some s → inv s

/-- A run of the machine that keeps a parser tame, and does not come to the fault of a second
token pushed back. -/
def Docile (inv : σ → Prop) (underWay : Prop) (x : Run (Parser σ) α) : Prop :=
  Respects (Same (Tame inv underWay)) Fault.IsMild x

variable {underWay : Prop} {p : Parser σ}

/-- While no parse is under way, it is the rules that matter. -/
theorem tame_of_rules
    (h : ∀ r ∈ p.grammar.rules ++ p.former, ∀ q ∈ r.patterns, Action.Tame inv q.action) :
    p.Tame inv False := ⟨h, False.elim, False.elim⟩

/-- A change is docile if it keeps parsers tame. -/
theorem docile_modify {f : Parser σ → Parser σ}
    (h : ∀ p : Parser σ, p.Tame inv underWay → (f p).Tame inv underWay) :
    Docile inv underWay (modify f) := by
  refine respects_modify ?_
  rintro _ p ⟨rfl, hp⟩
  exact ⟨rfl, h p hp⟩

/-- What is done with the parser may depend on its being tame. -/
theorem docile_get {f : Parser σ → Run (Parser σ) α}
    (h : ∀ p : Parser σ, p.Tame inv underWay → Docile inv underWay (f p)) :
    Docile inv underWay (get >>= f) := by
  refine respects_get ?_ ?_
  · rintro _ p ⟨rfl, -⟩
    rfl
  · rintro _ p ⟨rfl, hp⟩
    exact h p hp

/-- In a chain it may be used that the run before has returned. -/
theorem docile_bind {β : Type} {x : Run (Parser σ) α} {f : α → Run (Parser σ) β}
    (hx : Docile inv underWay x)
    (hf : ∀ a p p', p.Tame inv underWay → x.Returns p a p' → Docile inv underWay (f a)) :
    Docile inv underWay (x >>= f) := by
  rintro _ p ⟨rfl, hp⟩
  refine (hx p p ⟨rfl, hp⟩).bind_returns fun a p' p'' hsame hreturns => ?_
  exact hf a p p' hp hreturns p' p'' hsame

/-- Work on the source, if there is one, is polite enough if it is so on that one. -/
theorem alongside_onSource {work : Run σ α} (hp : p.Tame inv True)
    (hwork : ∀ s, p.source = some s → work.Leaves s fun r t => inv t ∧ Harmless r) :
    Alongside (Same (Tame inv True)) Fault.IsMild (onSource work) p (onSource work) p := by
  cases hsource : p.source with
  | none =>
    have hrun : (onSource work).run p = ⟨.error .precondition, p, []⟩ := by
      simp only [Run.run, onSource, hsource]
      rfl
    refine ⟨rfl, rfl, ?_, ?_⟩
    all_goals rw [hrun]
    · exact ⟨rfl, hp⟩
    · exact fun fault hfault => Except.error.inj hfault ▸ trivial
  | some s =>
    obtain ⟨hinv, hfaults⟩ := hwork s hsource
    refine ⟨rfl, rfl, ?_, ?_⟩
    all_goals rw [onSource_run hsource]
    · exact ⟨rfl, hp.rules, hp.frames, fun _ t ht => Option.some.inj ht ▸ hinv⟩
    · exact hfaults

/-- Polite work on the source is docile while a parse is under way. -/
theorem docile_onSource {work : Run σ α} (h : Polite inv work) :
    Docile inv True (onSource work) := by
  rintro _ p ⟨rfl, hp⟩
  exact alongside_onSource hp fun s hs => h s (hp.source trivial s hs)

-- ---------------------------------------------------------------------------
-- Changes of the grammar
-- ---------------------------------------------------------------------------

/-- The pattern of a frame has a tame action. -/
theorem Tame.patternOf? (hp : p.Tame inv underWay) {key : Key} {q : Pattern (Action σ)}
    (h : p.patternOf? key = some q) : Action.Tame inv q.action := by
  obtain ⟨r, hr, hq⟩ := mem_of_patternOf? h
  exact hp.rules r hr q hq

/-- A rule with tame actions may be put back. -/
theorem Tame.putBack (hp : p.Tame inv underWay) {r : Rule (Action σ)}
    (hr : ∀ q ∈ r.patterns, Action.Tame inv q.action) :
    (p.putBack r).Tame inv underWay where
  rules := forall_putBack hp.rules hr
  frames := by
    rw [stack_putBack]
    exact hp.frames
  source := by
    rw [source_putBack]
    exact hp.source

/-- Looking a rule up changes nothing. -/
theorem docile_named (name : String) :
    Docile inv underWay (named name : Run (Parser σ) (Rule (Action σ))) :=
  docile_get fun _ _ => respects_orFail _ trivial

/-- Reading a pattern fails plainly. -/
theorem docile_ofElements (elements : List Element) (action : Option (Action σ)) :
    Docile inv underWay (ofExcept (Pattern.ofElements elements action)) :=
  respects_ofExcept (only_ofElements elements action).harmless

/-- More may be said of a rule if the action that comes in is tame. -/
theorem docile_amend (name : String) {clause : Clause (Action σ)}
    (haction : Action.Tame inv clause.action) : Docile inv underWay (amend name clause) := by
  unfold amend
  refine docile_bind (docile_named name) fun r p p' hp hnamed => ?_
  have hr :=
    hp.rules r (List.mem_append_left _ (Grammar.mem_of_find?_eq_some (named_returns hnamed).1))
  refine docile_bind (respects_ofExcept (only_apply clause r).harmless) fun r' p p' _ hr' => ?_
  exact docile_modify fun q hq =>
    hq.putBack (Clause.forall_apply (returns_ofExcept.mp hr').1 hr haction)

/-- A rule may be taken out, as the others stay tame. -/
theorem docile_dropRule (name : String) :
    Docile inv underWay (dropRule name : Run (Parser σ) Unit) := by
  refine respects_bind (respects_discard (docile_named name)) fun _ => ?_
  exact docile_modify fun p hp => ⟨forall_takeOut hp.rules name, hp.frames, hp.source⟩

/-- A new rule has no actions. -/
theorem docile_newRule (name : String) :
    Docile inv underWay (newRule name : Run (Parser σ) Unit) := by
  rintro _ p ⟨rfl, hp⟩
  unfold newRule
  refine alongside_get_bind ?_
  split
  · exact alongside_fail trivial ⟨rfl, hp⟩
  · exact alongside_set ⟨rfl, forall_putNew hp.rules name, hp.frames, hp.source⟩

/-- Looking at the rule that is being declared changes nothing. -/
theorem docile_currentRule :
    Docile inv underWay (currentRule : Run (Parser σ) (Rule (Action σ))) := by
  refine docile_get fun p hp => ?_
  split
  · exact respects_pure _
  · exact respects_fail trivial

/-- The rule being declared may be changed by whatever keeps its actions tame. -/
theorem docile_changeCurrent {f : Rule (Action σ) → Except Fault (Rule (Action σ))}
    (hplain : ∀ r, Only Fault.IsPlain (f r))
    (hkeeps : ∀ r r', f r = .ok r' → (∀ q ∈ r.patterns, Action.Tame inv q.action) →
      ∀ q ∈ r'.patterns, Action.Tame inv q.action) : Docile inv underWay (changeCurrent f) := by
  unfold changeCurrent
  refine docile_bind docile_currentRule fun r p p' hp hcurrent => ?_
  have hr := hp.rules r (mem_of_rule? (currentRule_returns hcurrent).1)
  refine docile_bind (respects_ofExcept (hplain r).harmless) fun r' _ _ _ hr' => ?_
  exact docile_modify fun q hq => hq.putBack (hkeeps r r' (returns_ofExcept.mp hr').1 hr)

/-- So it is with changes that cannot fail. -/
theorem docile_reshapeCurrent {f : Rule (Action σ) → Rule (Action σ)}
    (hkeeps : ∀ r, (∀ q ∈ r.patterns, Action.Tame inv q.action) →
      ∀ q ∈ (f r).patterns, Action.Tame inv q.action) :
    Docile inv underWay (reshapeCurrent f) := by
  have hchange : Docile inv underWay (changeCurrent fun r => .ok (f r)) :=
    docile_changeCurrent (fun _ => only_ok _) fun r _ hr' hr => Except.ok.inj hr' ▸ hkeeps r hr
  exact respects_bind hchange fun _ => docile_modify fun p hp => ⟨hp.rules, hp.frames, hp.source⟩

/-- One thing is said about the rule being declared. -/
theorem docile_declare {clause : Clause (Action σ)} (haction : Action.Tame inv clause.action) :
    Docile inv underWay (declare clause) := by
  have hkeeps (r r' : Rule (Action σ)) (h : clause.apply r = .ok r') :
      (∀ q ∈ r.patterns, Action.Tame inv q.action) → ∀ q ∈ r'.patterns, Action.Tame inv q.action :=
    fun hr => Clause.forall_apply h hr haction
  cases clause with
  | pattern elements action =>
    refine respects_discard (docile_bind (docile_ofElements _ _) fun new _ _ _ hnew => ?_)
    have hadd (r : Rule (Action σ)) :=
      hkeeps r _ (bind_eq_ok.mpr ⟨new, (returns_ofExcept.mp hnew).1, rfl⟩)
    exact respects_bind (docile_reshapeCurrent hadd) fun _ => respects_pure _
  | optional | repeatable => exact docile_reshapeCurrent fun r => hkeeps r _ rfl
  | remark remark => exact docile_changeCurrent (only_remark remark) hkeeps

/-- A rule is declared with all that is said about it. -/
theorem docile_declareRule (name : String) {clauses : List (Clause (Action σ))}
    (hactions : ∀ clause ∈ clauses, Action.Tame inv clause.action) :
    Docile inv underWay (declareRule name clauses) := by
  unfold declareRule withRule
  refine docile_get fun p hp => ?_
  have hclauses : Docile inv underWay (clauses.forM declare) :=
    respects_forM fun clause hclause => docile_declare (hactions clause hclause)
  rintro _ q ⟨rfl, hq⟩
  refine alongside_thenAlways
    (respects_bind (docile_newRule name) (fun _ => hclauses) q q ⟨rfl, hq⟩) ?_
  rintro _ q ⟨rfl, hq⟩
  exact ⟨rfl, hq.rules, hq.frames, hq.source⟩

-- ---------------------------------------------------------------------------
-- The table
-- ---------------------------------------------------------------------------

/-- A grammar whose references all name rules is compiled, or it is ambiguous. -/
theorem docile_compileTable (hclosed : p.grammar.Closed) (hmemo : p.memo = [])
    (hp : p.Tame inv underWay) :
    Alongside (Same (Tame inv underWay)) Fault.IsMild compileTable p compileTable p := by
  refine alongside_get_bind ⟨rfl, rfl, ⟨rfl, hp.rules, hp.frames, hp.source⟩,
    fun fault hfault => ?_⟩
  have hfault' : (p.grammar.compile.run []).result = .error fault := hmemo ▸ hfault
  rcases Grammar.compile_cases hclosed with ⟨s, e, t, hambiguous, -⟩ | ⟨table, hok, -⟩
  · rw [hambiguous] at hfault'
    obtain rfl := Except.error.inj hfault'
    exact trivial
  · rw [hok] at hfault'
    cases hfault'

/-- Frames found again in rebuilt tables have the actions they had. -/
theorem tame_restore {table : Table} {frames : List (Frame σ)}
    (h : ∀ f ∈ frames, Action.Tame inv f.action) :
    ∀ f ∈ (restore table frames.reverse).1.reverse, Action.Tame inv f.action := by
  intro f hf
  obtain ⟨f', hf', heq⟩ := exists_action_of_mem_restore hf
  rw [← heq]
  exact h f' hf'

/-- **Rebuilding the tables** keeps the actions on the stack. -/
theorem docile_updateTable : Docile inv underWay (updateTable : Run (Parser σ) Unit) := by
  rintro _ p ⟨rfl, hp⟩
  unfold updateTable
  refine Alongside.bind_returns (alongside_modify ⟨rfl, hp.rules, hp.frames, hp.source⟩) ?_
  rintro _ _ q ⟨rfl, hq⟩ hmemo
  replace hmemo : q.memo = [] := by rw [← returns_modify.mp hmemo]
  refine alongside_get_bind (Alongside.bind_returns ?_ ?_)
  · exact respects_ofExcept (only_forM q.only_checkRule _).harmless q q ⟨rfl, hq⟩
  rintro _ _ q' ⟨rfl, -⟩ hcheck
  obtain ⟨hchecked, rfl⟩ := returns_ofExcept.mp hcheck
  refine (docile_compileTable (closed_of_checked hchecked) hmemo hq).bind fun table r r' hr => ?_
  have hrenewed : Docile inv underWay (modify fun p : Parser σ =>
      { p with table := table, isStale := false }) :=
    docile_modify fun _ hp => ⟨hp.rules, hp.frames, hp.source⟩
  -- from here on it is only the frames of the state looked at that matter
  refine respects_bind hrenewed (fun _ => ?_) r r' hr
  cases hstack : q.stack with
  | none => exact respects_pure ()
  | some stack =>
    have hframes (hunder : underWay) : ∀ f ∈ stack, Action.Tame inv f.action := by
      have hall := hq.frames hunder
      rw [hstack] at hall
      exact hall
    have hmoved : Docile inv underWay (modify fun p : Parser σ =>
        { p with stack := some (restore table stack.reverse).1.reverse }) :=
      docile_modify fun _ hp => ⟨hp.rules, fun hunder => tame_restore (hframes hunder), hp.source⟩
    refine respects_bind hmoved fun _ => ?_
    split
    · exact respects_fail trivial
    · exact respects_pure ()

/-- Whether the table has to be rebuilt first or not, a parser that is prepared for a
parse is tame. -/
theorem docile_prepare (rule : String) :
    Docile inv underWay (prepare rule : Run (Parser σ) (Rule (Action σ))) := by
  unfold prepare
  refine docile_get fun p _ => ?_
  split
  · exact respects_fail trivial
  · dsimp only
    split
    · exact respects_bind docile_updateTable fun _ => respects_pure _
    · exact respects_pure _

-- ---------------------------------------------------------------------------
-- Reports and actions
-- ---------------------------------------------------------------------------

/-- Work on the message log is docile if it raises no fault of pushing back. -/
theorem docile_onMessages {work : Run MessageLog α} (h : ∀ log, Harmless (work.run log).result) :
    Docile inv underWay (onMessages work : Run (Parser σ) α) := by
  rintro _ p ⟨rfl, hp⟩
  exact ⟨rfl, rfl, ⟨rfl, hp.rules, hp.frames, hp.source⟩, h p.messages⟩

/-- Which kinds of tokens are blocked has nothing to do with actions. -/
theorem docile_limit (kinds : List String) :
    Docile inv underWay (modify (limit kinds) : Run (Parser σ) Unit) :=
  docile_modify fun _ hp => ⟨hp.rules, hp.frames, hp.source⟩

-- ---------------------------------------------------------------------------
-- Frames
-- ---------------------------------------------------------------------------

/-- The frames of a parse under way have tame actions. -/
theorem docile_frames {k : List (Frame σ) → Run (Parser σ) α}
    (h : ∀ fs, (∀ f ∈ fs, Action.Tame inv f.action) → Docile inv True (k fs)) :
    Docile inv True (frames >>= k) := by
  unfold frames
  rw [bind_assoc]
  refine docile_get fun p hp => ?_
  rw [pure_bind]
  exact h _ (hp.frames trivial)

/-- Frames with tame actions may replace them. -/
theorem docile_setFrames {fs : List (Frame σ)} (h : ∀ f ∈ fs, Action.Tame inv f.action) :
    Docile inv True (setFrames fs : Run (Parser σ) Unit) :=
  docile_modify fun _ hp => ⟨hp.rules, fun _ => h, hp.source⟩

/-- The innermost frame may change, if it keeps its action. -/
theorem docile_changeTop {f : Frame σ → Frame σ} (hf : ∀ frame, (f frame).action = frame.action) :
    Docile inv True (changeTop f : Run (Parser σ) Unit) := by
  refine docile_frames fun fs hfs => ?_
  split
  · next top below =>
    obtain ⟨htop, hbelow⟩ := List.forall_mem_cons.mp hfs
    exact docile_setFrames (List.forall_mem_cons.mpr ⟨hf top ▸ htop, hbelow⟩)
  · exact respects_fail trivial

/-- Of the innermost frames only the keys are looked at. -/
theorem docile_topKeys {k : List Key → Run (Parser σ) α} (h : ∀ keys, Docile inv True (k keys)) :
    Docile inv True (topKeys >>= k) := by
  unfold topKeys
  rw [bind_assoc]
  refine docile_frames fun fs _ => ?_
  rw [pure_bind]
  exact h _

/-- Looking up where the parse stands changes nothing. -/
theorem docile_topSite : Docile inv True (topSite : Run (Parser σ) Site) := by
  unfold topSite
  refine docile_frames fun fs _ => ?_
  split
  · exact respects_pure _
  · exact respects_fail trivial

section Machine

variable [TokenSource σ] {empty : σ → Prop} (hsource : TokenSource.Courteous inv empty)

include hsource

/-- An error goes to the source, which takes it politely, or to the messages. -/
theorem docile_error (id text : String) (position : Option Position) (data : Payload) :
    Docile inv True (error id text position data : Run (Parser σ) α) := by
  unfold error
  refine docile_get fun p hp => ?_
  dsimp only
  split
  · exact respects_bind (docile_onSource (hsource.error _ _ _ _)) fun never => nomatch never
  · refine docile_onMessages fun log => ?_
    exact (MessageLog.respects_error _ _ _ _ _ _ log (Past.onLog ⟨[], 0, []⟩ log) rfl).faults

/-- A warning does so, too. -/
theorem docile_warning (id text : String) (position : Option Position) (data : Payload) :
    Docile inv True (warning id text position data : Run (Parser σ) Unit) := by
  unfold warning
  refine docile_get fun p hp => ?_
  dsimp only
  split
  · exact docile_onSource (hsource.warning _ _ _ _)
  · refine respects_discard (docile_onMessages fun log => ?_)
    exact (MessageLog.respects_add _ log (Past.onLog ⟨[], 0, []⟩ log) rfl).faults

/-- Tame scripts are carried out with the parser kept tame. -/
theorem docile_perform {script : Script σ} (h : script.Tame inv) :
    Docile inv True (perform script) := by
  induction h with
  | source hwork _ ih => exact respects_bind (docile_onSource hwork) ih
  | here _ ih => exact docile_get fun p _ => ih _
  | slots _ ih => exact docile_get fun p _ => ih _ _
  | error id text position data => exact docile_error hsource id text position data
  | warning id text position data _ ih =>
    exact respects_bind (docile_warning hsource id text position data) fun _ => ih
  | limit kinds _ ih => exact respects_bind (docile_limit kinds) fun _ => ih
  | amend rule haction _ _ ih => exact respects_bind (docile_amend rule haction) fun _ => ih
  | dropRule rule _ ih => exact respects_bind (docile_dropRule rule) fun _ => ih
  | declareRule rule hactions _ _ ih =>
    exact respects_bind (docile_declareRule rule hactions) fun _ => ih
  | rebuild _ ih => exact respects_bind docile_updateTable fun _ => ih
  | fail hmild => exact respects_fail hmild
  | done value => exact respects_pure value

-- ---------------------------------------------------------------------------
-- The machine, but for pushing back
-- ---------------------------------------------------------------------------

/-- The next token is asked of the source, which gives it politely. -/
theorem docile_nextToken (rounds : Nat) :
    Docile inv True (nextToken rounds : Run (Parser σ) Token) := by
  unfold nextToken
  refine respects_bind (docile_onSource (hsource.next rounds)) fun token => docile_get fun p _ => ?_
  split
  · exact docile_error hsource _ _ _ _
  · exact respects_pure token

/-- Behind a token that was read nothing is pushed back. -/
theorem empty_of_nextToken {rounds : Nat} {token : Token} {p' : Parser σ} (hp : p.Tame inv True)
    (h : (nextToken rounds).Returns p token p') : ∃ s, p'.source = some s ∧ empty s := by
  unfold nextToken at h
  obtain ⟨found, p₁, hsourced, h⟩ := returns_bind.mp h
  obtain ⟨s, s', hs, hnext, rfl⟩ := onSource_returns.mp hsourced
  obtain ⟨_, _, hget, h⟩ := returns_bind.mp h
  obtain ⟨rfl, rfl⟩ := returns_get.mp hget
  split at h
  · exact absurd h not_returns_error
  · obtain ⟨-, rfl⟩ := returns_pure.mp h
    exact ⟨s', rfl, hsource.empties (hp.source trivial s hs) hnext⟩

/-- A frame gets the action of its pattern. -/
theorem docile_pushFrame (site : Site) (token : Token) :
    Docile inv True (pushFrame site token : Run (Parser σ) Unit) := by
  have hpush {q : Pattern (Action σ)} (hq : Action.Tame inv q.action) : Docile inv True (do
      setFrames ({ site := site, action := q.action, first := token.position } :: (← frames)) :
        Run (Parser σ) Unit) := by
    refine docile_frames fun fs hfs => docile_setFrames ?_
    exact List.forall_mem_cons.mpr ⟨hq, hfs⟩
  unfold pushFrame
  refine docile_get fun p hp => ?_
  split
  · exact respects_fail trivial
  · next q hq =>
    have hq' := hp.patternOf? hq
    dsimp only
    split
    · exact respects_bind (docile_warning hsource _ _ _ _) fun _ => hpush hq'
    · exact respects_bind (docile_error hsource _ _ _ _) fun _ => hpush hq'
    all_goals exact hpush hq'

/-- Entering patterns pushes frames, each with the action of its pattern. -/
theorem docile_enterSkipped (site : Site) (token : Token) (moves : Bool) (skipped : List Key) :
    Docile inv True (enterSkipped site token moves skipped : Run (Parser σ) Unit) := by
  induction skipped generalizing moves with
  | nil => exact respects_pure ()
  | cons key rest ih =>
    unfold enterSkipped
    refine respects_bind (respects_orFail _ trivial) fun next => ?_
    dsimp only
    split
    · exact respects_bind (docile_changeTop fun _ => rfl) fun _ => ih false
    · exact respects_bind (docile_pushFrame hsource next token) fun _ => ih false

/-- **Shifting** enters the patterns passed on the way, and puts the token into its slot. -/
theorem docile_shift (site : Site) (t : Transition) (token : Token) :
    Docile inv True (shift site t token : Run (Parser σ) Site) := by
  have hdeposit : Docile inv True (deposit t token : Run (Parser σ) Unit) := by
    unfold deposit
    exact respects_bind (docile_changeTop fun _ => rfl) fun _ =>
      docile_topKeys fun _ => respects_emit _
  rw [shift_eq]
  refine respects_bind (docile_enterSkipped hsource _ _ _ _) fun _ => ?_
  exact respects_bind hdeposit fun _ => respects_orFail _ trivial

/-- An action that is called is tame, and so is what it adds to the grammar. -/
theorem docile_callAction {frame : Frame σ} (hframe : Action.Tame inv frame.action)
    (values : List Value) (positions : List (Option Position)) :
    Docile inv True (callAction frame values positions : Run (Parser σ) Value) := by
  unfold callAction
  split
  · exact respects_pure _
  · next action haction =>
    refine respects_bind (docile_modify fun p hp => ⟨hp.rules, hp.frames, hp.source⟩) fun _ => ?_
    rintro _ p ⟨rfl, hp⟩
    refine alongside_thenAlways
      (docile_perform hsource (hframe action haction values) p p ⟨rfl, hp⟩) ?_
    rintro _ q ⟨rfl, hq⟩
    exact ⟨rfl, hq.rules, hq.frames, hq.source⟩

/-- **Reducing** calls the action of a frame, and fills a slot of the one below. -/
theorem docile_reduce {frame : Frame σ} (hframe : Action.Tame inv frame.action) :
    Docile inv True (reduce frame : Run (Parser σ) Unit) := by
  unfold reduce
  dsimp only
  split
  · exact respects_fail trivial
  · refine docile_get fun p _ => ?_
    refine respects_bind (respects_ofExcept (only_completed p.grammar _ _).harmless) fun values =>
      ?_
    refine respects_bind (docile_callAction hsource hframe _ _) fun result =>
      docile_get fun p _ => ?_
    exact respects_bind (docile_changeTop fun _ => rfl) fun _ =>
      docile_topKeys fun _ => respects_emit _

/-- At the end of a parse one more token is looked at. -/
theorem docile_expectEnd (rounds : Nat) :
    Docile inv True (expectEnd rounds : Run (Parser σ) Unit) := by
  unfold expectEnd
  refine respects_bind (docile_nextToken hsource rounds) fun token => ?_
  split
  · exact respects_pure ()
  · exact docile_error hsource _ _ _ _

end Machine

end Parser

end GrammarEngine
