import GrammarEngine.Parser.Actions
import GrammarEngine.Proofs.Inclusion.Agenda
import GrammarEngine.Proofs.Parser.Growth
import GrammarEngine.Proofs.Parser.Progress
import GrammarEngine.Proofs.Parser.Tables

/-!
# A grammar of statements

A file is a row of statements up to its end; a statement is a word, or the inclusion of a file
that is carried out by the action of its pattern. What the machine does with this grammar is
followed step by step: what is on the stack is told by levels (`Stands`), and each token takes
one stack to the next.

Main results:

* `table_tabled` — the table of the grammar.
* `Stands.shift_start`, `Stands.shift_again`, `Stands.shift_name` — how statements are entered.
* `Stands.finish` — a statement is completed, with the token behind it pushed back.
* `Stands.concludes_end` — the end of the input completes the file.
* `Stands.round_start`, `Stands.round_name`, `Stands.round_again`, `Stands.concludes_ended` — the
  rounds of a parse.
-/

namespace GrammarEngine

namespace Inclusion

/-- Statements are read from a scanner. -/
abbrev Source := TokenQueue ⊕ Scanner

-- ---------------------------------------------------------------------------
-- The grammar
-- ---------------------------------------------------------------------------

/-- Carries out an inclusion. -/
def carryOut : Action Source :=
  Action.sequence [Action.includeFile 1,
    Action.compute fun values => .list (.text "included" :: values.drop 1)]

/-- A parser without rules. -/
def blank : Parser Source where
  stamped := by decide

/-- Declares the rules of a file of statements. -/
def declare : Run (Parser Source) Unit := do
  Parser.withRule "file" do
    discard (Parser.pattern [.written (.text "!statements"), .written (.text ".")]
      (some (Action.element 0)))
  Parser.withRule "statements" do
    Parser.optional
    Parser.repeatable
    discard (Parser.pattern [.written (.text "_include"), .written (.text "$ID")] (some carryOut))
    discard (Parser.pattern [.written (.text "$ID")] (some (Action.element 0)))

/-- The start rule. -/
def fileId : RuleId := ⟨"file", 0⟩

/-- The rule of statements. -/
def statementsId : RuleId := ⟨"statements", 1⟩

/-- A file is made of statements, and then it ends. -/
def fileTokens : List Descriptor := [⟨.reference, "statements"⟩, .atEnd]

/-- An inclusion names a file. -/
def inclusionTokens : List Descriptor := [⟨.literal, "include"⟩, ⟨.category, "ID"⟩]

/-- Any other statement is a word. -/
def wordTokens : List Descriptor := [⟨.category, "ID"⟩]

/-- The parser with these rules. -/
def declared : Parser Source where
  grammar :=
    { rules :=
        [{ id := fileId
           patterns := [.ofTokens fileTokens (some (Action.element 0))] },
          { id := statementsId
            patterns := [.ofTokens inclusionTokens (some carryOut),
              .ofTokens wordTokens (some (Action.element 0))]
            markedOptional := true
            repeatable := true }]
      distinct := by decide }
  declared := 2
  stamped := by decide

theorem declare_returns : declare.Returns blank () declared := Run.returns_of_result (by rfl)

-- ---------------------------------------------------------------------------
-- The table
-- ---------------------------------------------------------------------------

/-- The transitions into a statement. -/
def starts (skipped : List Key) (loopBack : Bool) : List Transition :=
  [⟨⟨.literal, "include"⟩, ⟨statementsId, some 0, 0⟩, skipped, loopBack⟩,
    ⟨⟨.category, "ID"⟩, ⟨statementsId, some 1, 0⟩, skipped, loopBack⟩]

/-- The transition at the end of a file. -/
def ends : Transition := ⟨.atEnd, ⟨fileId, some 0, 1⟩, [], false⟩

/-- In front of a file. -/
def fileEntry : State :=
  ⟨⟨fileId, none, 0⟩, [], false, false, starts [⟨fileId, some 0, 0⟩] false ++ [ends]⟩

/-- Behind the statements of a file. -/
def behindStatements : State := ⟨⟨fileId, some 0, 0⟩, fileTokens, false, false, [ends]⟩

/-- Behind the end of the input. -/
def behindEnd : State := ⟨⟨fileId, some 0, 1⟩, fileTokens, true, false, []⟩

/-- In front of the statements. -/
def statementsEntry : State := ⟨⟨statementsId, none, 0⟩, [], true, true, starts [] false⟩

/-- Between the first word of an inclusion and the name. -/
def behindInclude : State :=
  ⟨⟨statementsId, some 0, 0⟩, inclusionTokens, false, true,
    [⟨⟨.category, "ID"⟩, ⟨statementsId, some 0, 1⟩, [], false⟩]⟩

/-- Behind an inclusion. -/
def behindInclusion : State :=
  ⟨⟨statementsId, some 0, 1⟩, inclusionTokens, true, true, starts [] true⟩

/-- Behind a word. -/
def behindWord : State := ⟨⟨statementsId, some 1, 0⟩, wordTokens, true, true, starts [] true⟩

/-- The table of the grammar. -/
def table : Table :=
  [fileEntry, behindStatements, behindEnd, statementsEntry, behindInclude,
    behindInclusion, behindWord]

/-- The parser with its table. -/
def tabled : Parser Source := (Parser.updateTable.run declared).state

/-- The tables are made without a conflict. -/
theorem updateTable_declared : Parser.updateTable.Returns declared () tabled :=
  Run.returns_of_result (by decide +kernel)

theorem table_tabled : tabled.table = table := by decide +kernel

/-- A state of the table. -/
def site (state : State) : Site := ⟨table, state⟩

/-- A parser with this grammar and its table. -/
structure Prepared (p : Parser Source) : Prop where
  grammar : p.grammar = declared.grammar
  former : p.former = []
  table : p.table = table
  keywordKinds : p.keywordKinds = ["ID"]
  blocked : p.blocked = []

/-- The parser is prepared as soon as the table is made. -/
theorem prepared_tabled : Prepared tabled := by
  obtain ⟨-, -, ⟨memo, stack, heq⟩, -⟩ := Parser.updateTable_returns updateTable_declared
  refine ⟨?_, ?_, table_tabled, ?_, ?_⟩
  · rw [heq]
  · rw [heq]
    rfl
  · rw [heq]
    rfl
  · rw [heq]
    rfl

/-- A prepared parser finds the patterns that were declared. -/
theorem Prepared.patternOf? {p : Parser Source} (h : Prepared p) (key : Key) :
    p.patternOf? key = declared.patternOf? key := by
  unfold Parser.patternOf? Parser.rule?
  rw [h.grammar, h.former]
  rfl

theorem Prepared.repeats {p : Parser Source} (h : Prepared p) (id : RuleId) (recorded : Bool) :
    p.repeats id recorded = declared.repeats id recorded := by
  unfold Parser.repeats Parser.rule?
  rw [h.grammar, h.former]
  rfl

/-- No pattern is deprecated or removed. -/
theorem admits_declared (key : Key) : declared.Admits key := by
  intro pattern h
  have hall : ∀ r ∈ declared.grammar.rules ++ declared.former, ∀ q ∈ r.patterns,
      q.support ≠ .deprecated ∧ q.support ≠ .removed := by decide
  obtain ⟨r, hrule, hpattern⟩ := Parser.mem_of_patternOf? h
  exact hall r hrule pattern hpattern

theorem Prepared.admits {p : Parser Source} (h : Prepared p) (key : Key) :
    p.Admits key := fun pattern hpattern =>
  admits_declared key pattern ((h.patternOf? key).symm.trans hpattern)

-- ---------------------------------------------------------------------------
-- Statements and states
-- ---------------------------------------------------------------------------

end Inclusion

namespace Statement

open Inclusion

/-- The state behind the first word of a statement. -/
def begun : Statement → State
  | .inclusion _ => behindInclude
  | .word _ _ => behindWord

/-- The state behind a statement. -/
def ended : Statement → State
  | .inclusion _ => behindInclusion
  | .word _ _ => behindWord

/-- What is done with a statement. -/
def action : Statement → Action Source
  | .inclusion _ => carryOut
  | .word _ _ => Action.element 0

/-- What a transition into a statement looks for. -/
def descriptor : Statement → Descriptor
  | .inclusion _ => ⟨.literal, "include"⟩
  | .word _ _ => ⟨.category, "ID"⟩

/-- The transition into a statement. -/
def entrance (statement : Statement) (skipped : List Key) (loopBack : Bool) : Transition :=
  ⟨statement.descriptor, statement.begun.key, skipped, loopBack⟩

end Statement

namespace Inclusion

/-- An identifier is looked up as a literal first. -/
theorem transition?_of_denotes {state : State} {token : Token} {word : String}
    (h : Scanner.Denotes token word) :
    state.transition? ["ID"] token =
      (state.find? ⟨.literal, word⟩).orElse fun _ => state.find? ⟨.category, "ID"⟩ := by
  unfold State.transition? Token.isEnd
  rw [h.kind, h.value]
  rfl

/-- The end of the input is looked up as such, whatever kinds there are. -/
theorem transition?_of_isEnd {state : State} {token : Token} (h : token.isEnd = true)
    (kinds : List String) : state.transition? kinds token = state.find? .atEnd := by
  unfold State.transition?
  rw [if_pos h]

/-- The first word of a statement leads into it. -/
theorem transition?_first {state : State} {skipped : List Key} {loopBack : Bool}
    (more : List Transition) (htransitions : state.transitions = starts skipped loopBack ++ more)
    (hmore : ∀ t ∈ more, t.token = .atEnd) {statement : Statement} {token : Token}
    (hdenotes : Scanner.Denotes token statement.first) :
    state.transition? ["ID"] token = some (statement.entrance skipped loopBack) := by
  rw [transition?_of_denotes hdenotes]
  unfold State.find?
  rw [htransitions]
  cases statement with
  | inclusion file => rfl
  | word text hword =>
    -- the word is no literal of the grammar
    have hnone : (starts skipped loopBack ++ more).find? (·.token == ⟨.literal, text⟩) = none := by
      rw [List.find?_eq_none]
      intro t ht
      rcases List.mem_append.mp ht with ht | ht
      · unfold starts at ht
        rcases List.mem_cons.mp ht with rfl | ht
        · simpa using Ne.symm hword
        · rw [List.mem_singleton] at ht
          rw [ht]
          simp
      · rw [hmore t ht]
        simp [Descriptor.atEnd]
    show (List.find? _ (starts skipped loopBack ++ more)).orElse _ = _
    rw [show (Statement.word text hword).first = text from rfl, hnone]
    rfl

/-- A statement begins at a state of the table. -/
theorem follow?_begun (state : State) (statement : Statement) :
    (site state).follow? statement.begun.key = some (site statement.begun) := by
  cases statement <;> rfl

/-- The action of a statement works on the scanner if that is an inclusion. -/
inductive Acts : Statement → Scanner → Scanner → Prop
  | word {text : String} {h : text ≠ "include"} {t : Scanner} : Acts (.word text h) t t
  | inclusion {file full : String} {t t' : Scanner}
      (h : (Scanner.includeFile file none .idle).Returns t full t') : Acts (.inclusion file) t t'

-- ---------------------------------------------------------------------------
-- The stack
-- ---------------------------------------------------------------------------

/-- What matters of a frame: its state, its action and its values. -/
structure Level where
  state : State
  action : Option (Action Source)
  values : List Value

/-- What matters of a given frame. -/
structure Shows (f : Frame Source) (level : Level) : Prop where
  site : f.site = site level.state
  action : f.action = level.action
  values : f.values = level.values

/-- A parser with this grammar reads from a scanner, and has frames of given levels. -/
structure Stands (p : Parser Source) (t : Scanner) (levels : List Level) : Prop
    extends Prepared p where
  source : p.source = some (.inr t)
  stack : ∃ frames, p.stack = some frames ∧ List.Forall₂ Shows frames levels

/-- The frame of the start rule. -/
def rootLevel : Level := ⟨fileEntry, none, []⟩

/-- The values collected in a slot for several. -/
def collected (values : List Value) : List Value := if values = [] then [] else [.series values]

/-- The frame of the file, with the values of the statements so far. -/
def fileLevel (values : List Value) : Level :=
  ⟨behindStatements, some (Action.element 0), collected values⟩

/-- The frame of a file whose end was read. -/
def lastLevel (values : List Value) (token : Token) : Level :=
  ⟨behindEnd, some (Action.element 0), Frame.setSlot .nothing 1 token.value (collected values)⟩

/-- The frame of a statement whose first word was read. -/
def begunLevel (statement : Statement) : Level :=
  ⟨statement.begun, some statement.action, [.text statement.first]⟩

/-- The frame of a complete statement. -/
def endedLevel (statement : Statement) : Level :=
  ⟨statement.ended, some statement.action, statement.words.map Value.text⟩

/-- A parser that goes on with another scanner. -/
def reading (p : Parser Source) (t : Scanner) : Parser Source := { p with source := some (.inr t) }

section Machine

variable {p : Parser Source} {t t' t₁ t₂ t₃ t₄ : Scanner} {levels : List Level}
  {token token' : Token} {statement next : Statement} {values : List Value} {rounds : Nat}

theorem Stands.reading (h : Stands p t levels) (t' : Scanner) : Stands (reading p t') t' levels :=
  ⟨⟨h.grammar, h.former, h.table, h.keywordKinds, h.blocked⟩, rfl, h.stack⟩

/-- The next token of the scanner is that of the parser, as all kinds are accepted. -/
theorem Stands.nextToken (h : Stands p t levels)
    (hnext : (Scanner.next rounds).Returns t token t') :
    (Parser.nextToken rounds).Returns p token (Inclusion.reading p t') :=
  Parser.nextToken_of_source h.source (TokenSource.either_returns_right hnext) h.blocked

/-- A frame as it is pushed. -/
def fresh (state : State) (action : Option (Action Source)) (token : Token) : Frame Source :=
  { site := site state, action := action, first := token.position }

/-- The frame of a statement, once its first word is in its slot. -/
theorem shows_begun (hdenotes : Scanner.Denotes token statement.first) :
    Shows ((fresh statement.begun (some statement.action) token).insert
      statement.begun.key.index token.value token.position false) (begunLevel statement) := by
  have hindex : statement.begun.key.index = 0 := by cases statement <;> rfl
  refine ⟨rfl, rfl, ?_⟩
  show Frame.setSlot .nothing statement.begun.key.index token.value [] = _
  rw [hindex, hdenotes.value]
  rfl

/-- The pattern of a statement has its action. -/
theorem Stands.pattern_begun (h : Stands p t levels) (statement : Statement) : ∃ pattern,
    p.patternOf? statement.begun.key = some pattern ∧ pattern.action = some statement.action := by
  rw [h.patternOf?]
  cases statement with
  | inclusion file => exact ⟨_, rfl, rfl⟩
  | word text hword => exact ⟨_, rfl, rfl⟩

/-- The stack changes, and nothing else. -/
theorem Stands.withStack {levels' : List Level} (h : Stands p t levels)
    {frames : List (Frame Source)} (hshows : List.Forall₂ Shows frames levels') :
    Stands { p with stack := some frames } t levels' :=
  ⟨⟨h.grammar, h.former, h.table, h.keywordKinds, h.blocked⟩, h.source, frames, rfl, hshows⟩

/-- The first word of the main file enters the frame of the file, and that of the statement. -/
theorem Stands.shift_start (h : Stands p t [rootLevel])
    (hdenotes : Scanner.Denotes token statement.first) :
    ∃ p',
      (Parser.shift (site fileEntry) (statement.entrance [⟨fileId, some 0, 0⟩] false) token).Returns
        p (site statement.begun) p' ∧
      Stands p' t [begunLevel statement, fileLevel [], rootLevel] := by
  obtain ⟨frames, hstack, hshows⟩ := h.stack
  obtain ⟨pattern, hpattern, haction⟩ := h.pattern_begun statement
  have hfollow := follow?_begun fileEntry statement
  have henters : Parser.Enters p (site fileEntry) token false
      [⟨fileId, some 0, 0⟩, statement.begun.key] frames
      (fresh statement.begun (some statement.action) token ::
        fresh behindStatements (some (Action.element 0)) token :: frames) := by
    have hfile : (site fileEntry).follow? ⟨fileId, some 0, 0⟩ = some (site behindStatements) := by
      rfl
    refine .fresh (.cons hfile ((h.patternOf? _).trans rfl) ?_)
    refine .cons hfollow hpattern ?_
    rw [haction]
    exact .nil _
  exact ⟨_, Parser.shift_of_enters (fun k _ => h.admits k) hstack hfollow henters,
    h.withStack (.cons (shows_begun hdenotes) (.cons ⟨rfl, rfl, rfl⟩ hshows))⟩

/-- The first word of a statement enters its frame, behind another statement. -/
theorem Stands.shift_again (h : Stands p t levels) (statement : Statement)
    (hdenotes : Scanner.Denotes token next.first) :
    ∃ p', (Parser.shift (site statement.ended) (next.entrance [] true) token).Returns p
      (site next.begun) p' ∧ Stands p' t (begunLevel next :: levels) := by
  obtain ⟨frames, hstack, hshows⟩ := h.stack
  obtain ⟨pattern, hpattern, haction⟩ := h.pattern_begun next
  have hfollow := follow?_begun statement.ended next
  have henters : Parser.Enters p (site statement.ended) token
      ((site statement.ended).state.key.pattern.isSome && !true) [next.begun.key] frames
      (fresh next.begun (some next.action) token :: frames) := by
    rw [Bool.not_true, Bool.and_false]
    refine .fresh (.cons hfollow hpattern ?_)
    rw [haction]
    exact .nil _
  exact ⟨_, Parser.shift_of_enters (fun k _ => h.admits k) hstack hfollow henters,
    h.withStack (.cons (shows_begun hdenotes) hshows)⟩

/-- The name of a file goes behind its inclusion. -/
theorem Stands.shift_name {file : String} (h : Stands p t (begunLevel (.inclusion file) :: levels))
    (hdenotes : Scanner.Denotes token file) :
    ∃ tr p', behindInclude.transition? ["ID"] token = some tr ∧ tr.loopBack = false ∧
      (Parser.shift (site behindInclude) tr token).Returns p (site behindInclusion) p' ∧
      Stands p' t (endedLevel (.inclusion file) :: levels) := by
  obtain ⟨frames, hstack, hshows⟩ := h.stack
  have htransition : behindInclude.transition? ["ID"] token =
      some ⟨⟨.category, "ID"⟩, ⟨statementsId, some 0, 1⟩, [], false⟩ := by
    have hliteral : ((⟨.category, "ID"⟩ : Descriptor) == ⟨.literal, file⟩) = false := by simp
    have hnone : behindInclude.find? ⟨.literal, file⟩ = none := by
      unfold State.find? behindInclude
      rw [List.find?_cons_of_neg (by rw [hliteral]; exact Bool.false_ne_true), List.find?_nil]
    rw [transition?_of_denotes hdenotes, hnone]
    rfl
  cases hshows with
  | @cons top _ below _ htop hbelow =>
    refine ⟨_, _, htransition, rfl,
      Parser.shift_of_enters (fun k _ => h.admits k) hstack (by rfl) (.moves (by rfl) (.nil _)),
      h.withStack (.cons ⟨rfl, htop.action, ?_⟩ hbelow)⟩
    show Frame.setSlot .nothing 1 token.value top.values = _
    rw [hdenotes.value, htop.values]
    rfl

/-- The end of the input goes behind the statements. -/
theorem Stands.shift_end (h : Stands p t [fileLevel values, rootLevel]) (token : Token) :
    ∃ p', (Parser.shift (site behindStatements) ends token).Returns p (site behindEnd) p' ∧
      Stands p' t [lastLevel values token, rootLevel] := by
  obtain ⟨frames, hstack, hshows⟩ := h.stack
  cases hshows with
  | @cons top _ below _ htop hbelow =>
    refine ⟨_, Parser.shift_of_enters (fun k _ => h.admits k) hstack (by rfl)
      (.moves (by rfl) (.nil _)), h.withStack (.cons ⟨rfl, htop.action, ?_⟩ hbelow)⟩
    show Frame.setSlot .nothing 1 token.value top.values = _
    rw [htop.values]
    rfl

/-- The end of an empty main file. -/
theorem Stands.shift_empty (h : Stands p t [rootLevel]) (token : Token) :
    ∃ p', (Parser.shift (site fileEntry) ends token).Returns p (site behindEnd) p' ∧
      Stands p' t [lastLevel [] token, rootLevel] := by
  obtain ⟨frames, hstack, hshows⟩ := h.stack
  have hfollow : (site fileEntry).follow? ⟨fileId, some 0, 1⟩ = some (site behindEnd) := by rfl
  have henters : Parser.Enters p (site fileEntry) token false [⟨fileId, some 0, 1⟩] frames
      (fresh behindEnd (some (Action.element 0)) token :: frames) :=
    .fresh (.cons hfollow ((h.patternOf? _).trans rfl) (.nil _))
  exact ⟨_, Parser.shift_of_enters (fun k _ => h.admits k) hstack hfollow henters,
    h.withStack (.cons ⟨rfl, rfl, rfl⟩ hshows)⟩

-- ---------------------------------------------------------------------------
-- Completing statements
-- ---------------------------------------------------------------------------

/-- The action of a statement returns its value. -/
theorem perform_action (hsource : p.source = some (.inr t)) (hacts : Acts statement t t') :
    (Parser.perform (statement.action (statement.words.map Value.text))).Returns p statement.value
      (reading p t') := by
  cases hacts with
  | word =>
    refine Run.returns_pure.mpr ⟨rfl, ?_⟩
    unfold Inclusion.reading
    rw [← hsource]
  | @inclusion file full _ _ h =>
    have hwork : (Action.scanning (do pure (Value.text (← Scanner.includeFile file none .idle))) :
        Run Source Value).Returns (.inr t) (.text full) (.inr t') :=
      TokenSource.either_returns_right
        (Run.returns_bind.mpr ⟨full, t', h, Run.returns_pure.mpr ⟨rfl, rfl⟩⟩)
    refine Run.returns_bind.mpr ⟨.text full, _,
      Parser.onSource_returns.mpr ⟨_, _, hsource, hwork, rfl⟩, ?_⟩
    exact Run.returns_pure.mpr ⟨rfl, rfl⟩

/-- The values of a complete statement are given to its action as they are. -/
theorem completed_words (g : Grammar (Action Source)) (statement : Statement) :
    Parser.completed g statement.ended.tokens (Parser.padded .nothing statement.ended.tokens.length
      (statement.words.map Value.text)) = .ok (statement.words.map Value.text) := by
  cases statement <;> rfl

/-- One more value is collected. -/
theorem collected_insert {f : Frame Source} {value : Value} (position : Option Position)
    (hvalues : f.values = collected values) (hone : Series.push [] value = [value] ∧
      Series.push values value = values ++ [value]) :
    (f.insert 0 value position true).values = collected (values ++ [value]) := by
  unfold collected at hvalues ⊢
  rw [if_neg (List.append_ne_nil_of_right_ne_nil _ (List.cons_ne_nil _ _))]
  by_cases hempty : values = []
  · rw [if_pos hempty] at hvalues
    unfold Frame.insert
    rw [hvalues, hempty]
    show [Value.series (Series.push [] value)] = _
    rw [hone.1]
    rfl
  · rw [if_neg hempty] at hvalues
    unfold Frame.insert
    rw [hvalues]
    show [Value.series (Series.push values value)] = _
    rw [hone.2]

/-- Behind a complete statement its own frame stands on that of the file. The action of the
statement is given its words, whatever the grammar. -/
theorem Stands.behind_statement
    (h : Stands p t (endedLevel statement :: fileLevel values :: levels)) :
    ∃ frame parent below, p.stack = some (frame :: parent :: below) ∧
      frame.site.state = statement.ended ∧ frame.action = some statement.action ∧
      frame.key.pattern.isSome = true ∧
      (∀ g : Grammar (Action Source), Parser.completed g frame.site.state.tokens
        (Parser.padded .nothing frame.site.state.tokens.length frame.values) =
          .ok (statement.words.map Value.text)) ∧
      Shows parent (fileLevel values) ∧ List.Forall₂ Shows below levels := by
  obtain ⟨frames, hstack, hshows⟩ := h.stack
  cases hshows with
  | @cons frame _ _ _ hframe hshows =>
    cases hshows with
    | @cons parent _ below _ hparent hbelow =>
      have hstate : frame.site.state = statement.ended := by rw [hframe.site]; rfl
      refine ⟨frame, parent, below, hstack, hstate, hframe.action, ?_, fun g => ?_, hparent, hbelow⟩
      · unfold Frame.key
        rw [hstate]
        cases statement <;> rfl
      · rw [hstate, hframe.values]
        exact completed_words g statement

/-- **A statement is completed** with the token behind it pushed back: its action is called, and its
value is added to those of the file. -/
theorem Stands.finish (h : Stands p t₁ (endedLevel statement :: fileLevel values :: levels))
    (hback : (Scanner.pushBack token).Returns t₁ () t₂) (hacts : Acts statement t₂ t₃) :
    ∃ p', (∀ rounds, (Parser.finish rounds (some token)).Returns p false p') ∧
      Stands p' t₃ (fileLevel (values ++ [statement.value]) :: levels) := by
  obtain ⟨frame, parent, below, hstack, hstate, haction, hpattern, hvalues, hparent, hbelow⟩ :=
    h.behind_statement
  have hgiven : (Parser.giveBack (some token)).Returns p () (Inclusion.reading p t₂) :=
    Parser.giveBack_of_source h.source (TokenSource.either_returns_right hback)
  -- what the action does with the words
  let waiting : Parser Source := { Inclusion.reading p t₂ with stack := some (parent :: below) }
  let positions := Parser.padded none frame.site.state.tokens.length frame.positions
  have hperform : (Parser.perform (statement.action (statement.words.map Value.text))).Returns
      { waiting with
        values := some (statement.words.map Value.text)
        positions := some positions
        reducing := some frame } statement.value _ := perform_action (by rfl) hacts
  have hcall := Parser.callAction_of_action (p := waiting) haction hperform
  have hreduce := Parser.reduce_of_action hpattern (hvalues _) hcall (by rfl)
  refine ⟨_, fun rounds => Parser.finish_of_frame hgiven hstack hreduce, ?_⟩
  refine ⟨⟨h.grammar, h.former, h.table, h.keywordKinds, h.blocked⟩, rfl, _, rfl,
    .cons ⟨hparent.site, hparent.action, ?_⟩ hbelow⟩
  have hindex : parent.key.index = 0 := by
    unfold Frame.key
    rw [hparent.site]
    rfl
  have hrule : frame.key.rule = statementsId := by
    unfold Frame.key
    rw [hstate]
    cases statement <;> rfl
  have hseveral (recorded : Bool) : declared.repeats statementsId recorded = true := by rfl
  rw [hindex, hrule, Prepared.repeats
    (by exact ⟨h.grammar, h.former, h.table, h.keywordKinds, h.blocked⟩), hseveral]
  refine collected_insert _ hparent.values ?_
  cases statement <;> exact ⟨rfl, rfl⟩

-- ---------------------------------------------------------------------------
-- The end of the input
-- ---------------------------------------------------------------------------

/-- A file without statements has an empty series of them. -/
theorem completed_file (values : List Value) (token : Token) :
    Parser.completed declared.grammar fileTokens (Parser.padded .nothing fileTokens.length
      (Frame.setSlot .nothing 1 token.value (collected values))) =
        .ok [.series values, token.value] := by
  have hend : Parser.filled declared.grammar .atEnd token.value = .ok token.value := by
    unfold Parser.filled
    have hterminal : Descriptor.atEnd.isTerminal = true := by rfl
    rw [hterminal, Bool.not_true, Bool.and_false, if_neg Bool.false_ne_true]
  have hrow : Parser.padded .nothing fileTokens.length (Frame.setSlot .nothing 1 token.value
      (collected values)) = [(collected values).headD .nothing, token.value] := by
    unfold collected
    by_cases hempty : values = []
    · rw [if_pos hempty]
      rfl
    · rw [if_neg hempty]
      rfl
  have hfirst : Parser.filled declared.grammar ⟨.reference, "statements"⟩
      ((collected values).headD .nothing) = .ok (.series values) := by
    unfold collected
    by_cases hempty : values = []
    · rw [if_pos hempty, hempty]
      rfl
    · rw [if_neg hempty]
      rfl
  rw [hrow]
  unfold fileTokens Parser.completed
  rw [hfirst]
  unfold Parser.completed
  rw [hend]
  rfl

/-- The file is completed, and its statements are the value of the start rule. -/
theorem Stands.finish_file (h : Stands p t [lastLevel values token, rootLevel]) :
    ∃ p', (∀ rounds, (Parser.finish rounds none).Returns p false p') ∧
      Stands p' t [⟨fileEntry, none, [.series values]⟩] := by
  obtain ⟨frames, hstack, hshows⟩ := h.stack
  cases hshows with
  | @cons frame _ _ _ hframe hshows =>
    cases hshows with
    | @cons root _ below _ hroot hbelow =>
      cases hbelow
      have hgiven : (Parser.giveBack none).Returns p () p := Run.returns_pure.mpr ⟨rfl, rfl⟩
      have hstate : frame.site.state = behindEnd := by rw [hframe.site]; rfl
      have hpattern : frame.key.pattern.isSome = true := by
        unfold Frame.key
        rw [hstate]
        rfl
      let waiting : Parser Source := { p with stack := some [root] }
      have hvalues : Parser.completed waiting.grammar frame.site.state.tokens
          (Parser.padded .nothing frame.site.state.tokens.length frame.values) =
            .ok [.series values, token.value] := by
        rw [hstate, hframe.values]
        show Parser.completed p.grammar _ _ = _
        rw [h.grammar]
        exact completed_file values token
      have hperform : (Parser.perform
          ((Action.element 0 : Action Source) [.series values, token.value])).Returns { waiting with
            values := some [.series values, token.value]
            positions := some (Parser.padded none frame.site.state.tokens.length frame.positions)
            reducing := some frame } (.series values) _ := Run.returns_pure.mpr ⟨rfl, rfl⟩
      have hcall := Parser.callAction_of_action (p := waiting) hframe.action hperform
      have hreduce := Parser.reduce_of_action hpattern hvalues hcall (by rfl)
      refine ⟨_, fun rounds => Parser.finish_of_frame hgiven hstack hreduce, ?_⟩
      refine ⟨⟨h.grammar, h.former, h.table, h.keywordKinds, h.blocked⟩, h.source, _, rfl,
        .cons ⟨hroot.site, hroot.action, ?_⟩ .nil⟩
      have hindex : root.key.index = 0 := by
        unfold Frame.key
        rw [hroot.site]
        rfl
      have hrule : frame.key.rule = fileId := by
        unfold Frame.key
        rw [hstate]
        rfl
      have hsingle (recorded : Bool) : declared.repeats fileId recorded = false := by rfl
      rw [hindex, hrule, Prepared.repeats
        (by exact ⟨h.grammar, h.former, h.table, h.keywordKinds, h.blocked⟩), hsingle]
      show Frame.setSlot .nothing 0 _ root.values = _
      rw [hroot.values]
      rfl

/-- Behind the end of the file the parse is over. -/
theorem Stands.concludes_last (h : Stands p t [lastLevel values token, rootLevel]) {last : Token}
    (hdone : Scanner.Done last t) : Parser.Concludes (site behindEnd) p (.series values) := by
  obtain ⟨p₁, hfinish, hstands⟩ := h.finish_file
  obtain ⟨t', ⟨n, hn⟩, -, -⟩ := hdone.next
  obtain ⟨frames, hstack, hshows⟩ := hstands.stack
  cases hshows with
  | @cons root _ _ _ hroot hrest =>
    cases hrest
    have hempty : Stands { p₁ with stack := some [] } t [] := hstands.withStack .nil
    have hround : Run.Yields (fun rounds => Parser.round rounds (site behindEnd)) p (.inr ())
        { Inclusion.reading { p₁ with stack := some [] } t' with stack := some [root] } := by
      refine ⟨n, fun rounds hrounds => ?_⟩
      refine Parser.round_of_empty rfl (Parser.settle_of_root rfl (hfinish rounds) hstack ?_)
      exact Parser.finish_of_root hstack hdone.isEnd (hempty.nextToken (hn rounds hrounds))
    exact .of_last hround rfl (by rw [hroot.values]; rfl)

/-- Behind the statements nothing but the end of the input comes. -/
theorem Stands.concludes_end (h : Stands p t [fileLevel values, rootLevel]) {last : Token}
    (hdone : Scanner.Done last t) :
    Parser.Concludes (site behindStatements) p (.series values) := by
  obtain ⟨t', ⟨n, hn⟩, -, hdone'⟩ := hdone.next
  have hreading := h.reading t'
  obtain ⟨p', hshift, hstands⟩ := hreading.shift_end last
  refine .of_round ⟨n, fun rounds hrounds => ?_⟩ (hstands.concludes_last hdone')
  refine Parser.round_of_shift (List.cons_ne_nil _ _) (h.nextToken (hn rounds hrounds))
    ?_ rfl hshift
  rw [transition?_of_isEnd hdone.isEnd]
  rfl

-- ---------------------------------------------------------------------------
-- Rounds
-- ---------------------------------------------------------------------------

/-- The round at the beginning of the main file: its first word begins a statement. -/
theorem Stands.round_start (h : Stands p t [rootLevel]) (hnext : Run.Yields Scanner.next t token t')
    (hdenotes : Scanner.Denotes token statement.first) :
    ∃ p', Run.Yields (fun rounds =>
      Parser.round rounds (site fileEntry)) p (.inl (site statement.begun)) p' ∧
      Stands p' t' [begunLevel statement, fileLevel [], rootLevel] := by
  obtain ⟨n, hn⟩ := hnext
  obtain ⟨p', hshift, hstands⟩ := (h.reading t').shift_start hdenotes
  refine ⟨p', ⟨n, fun rounds hrounds => ?_⟩, hstands⟩
  refine Parser.round_of_shift (List.cons_ne_nil _ _) (h.nextToken (hn rounds hrounds))
    ?_ rfl hshift
  show fileEntry.transition? p.keywordKinds token = _
  rw [h.keywordKinds]
  exact transition?_first [ends] rfl (fun t ht => by rw [List.mem_singleton.mp ht]; rfl) hdenotes

/-- The round in which the name of a file is read behind its inclusion. -/
theorem Stands.round_name {file : String} (h : Stands p t (begunLevel (.inclusion file) :: levels))
    (hnext : Run.Yields Scanner.next t token t') (hdenotes : Scanner.Denotes token file) :
    ∃ p', Run.Yields (fun rounds => Parser.round rounds (site behindInclude)) p
      (.inl (site behindInclusion)) p' ∧ Stands p' t' (endedLevel (.inclusion file) :: levels) := by
  obtain ⟨n, hn⟩ := hnext
  obtain ⟨tr, p', htransition, hloop, hshift, hstands⟩ := (h.reading t').shift_name hdenotes
  refine ⟨p', ⟨n, fun rounds hrounds => ?_⟩, hstands⟩
  refine Parser.round_of_shift (List.cons_ne_nil _ _) (h.nextToken (hn rounds hrounds)) ?_
    hloop hshift
  show behindInclude.transition? p.keywordKinds token = _
  rw [h.keywordKinds]
  exact htransition

/-- Behind a statement, the first word of another one starts the rule over. -/
theorem Stands.transition?_ended (h : Stands p t levels) (statement : Statement)
    (hdenotes : Scanner.Denotes token next.first) :
    (site statement.ended).state.transition? p.keywordKinds token =
      some (next.entrance [] true) := by
  show statement.ended.transition? p.keywordKinds token = _
  rw [h.keywordKinds]
  refine transition?_first [] ?_ (fun _ h => nomatch h) hdenotes
  cases statement <;> rfl

/-- Behind a statement the end of the input has no transition. -/
theorem transition?_ended_isEnd (statement : Statement) (hend : token.isEnd = true)
    (kinds : List String) : (site statement.ended).state.transition? kinds token = none := by
  rw [transition?_of_isEnd hend]
  cases statement <;> rfl

theorem transitions_ended (statement : Statement) :
    (site statement.ended).state.transitions ≠ [] := by
  cases statement <;> exact List.cons_ne_nil _ _

/-- The round from a statement to the next one: the token behind the statement is pushed back while
its action is called, and what comes then begins a statement. -/
theorem Stands.round_again {ahead : Statement}
    (h : Stands p t (endedLevel statement :: fileLevel values :: levels))
    (hahead : Run.Yields Scanner.next t token t₁) (hdenotes : Scanner.Denotes token ahead.first)
    (hback : (Scanner.pushBack token).Returns t₁ () t₂) (hacts : Acts statement t₂ t₃)
    (hnext : Run.Yields Scanner.next t₃ token' t₄) (hdenotes' : Scanner.Denotes token' next.first) :
    ∃ p', Run.Yields (fun rounds =>
      Parser.round rounds (site statement.ended)) p (.inl (site next.begun)) p' ∧
      Stands p' t₄ (begunLevel next :: fileLevel (values ++ [statement.value]) :: levels) := by
  obtain ⟨m, hm⟩ := hahead
  obtain ⟨n, hn⟩ := hnext
  have hstands₁ := h.reading t₁
  obtain ⟨p₂, hfinish, hstands₂⟩ := hstands₁.finish hback hacts
  have hreading := hstands₂.reading t₄
  obtain ⟨p', hshift, hstands'⟩ := hreading.shift_again statement hdenotes'
  have hagain : p₂.renewed (site statement.ended) = site statement.ended := by
    unfold Parser.renewed
    rw [hstands₂.table]
    cases statement <;> rfl
  refine ⟨p', ⟨max m n, fun rounds hrounds => ?_⟩, hstands'⟩
  exact Parser.round_of_loopBack (transitions_ended statement) (h.nextToken (hm rounds (by omega)))
    (hstands₁.transition?_ended statement hdenotes) rfl (hfinish rounds) hagain
    (hstands₂.nextToken (hn rounds (by omega)))
      (hreading.transition?_ended statement hdenotes') hshift

/-- Behind the last statement the end of the input comes. It is pushed back while the action of the
statement is called, and then completes the file. -/
theorem Stands.concludes_ended (h : Stands p t [endedLevel statement, fileLevel values, rootLevel])
    (hnext : Run.Yields Scanner.next t token t₁) (hend : token.isEnd = true)
    (hback : (Scanner.pushBack token).Returns t₁ () t₂) (hacts : Acts statement t₂ t₃)
    (hdone : Scanner.Done token t₃) :
    Parser.Concludes (site statement.ended) p (.series (values ++ [statement.value])) := by
  obtain ⟨n, hn⟩ := hnext
  obtain ⟨p₂, hfinish, hstands₂⟩ := (h.reading t₁).finish hback hacts
  obtain ⟨frames, hstack, hshows⟩ := hstands₂.stack
  have hround : Run.Yields (fun rounds => Parser.round rounds (site statement.ended)) p
      (.inl (site behindStatements)) p₂ := by
    refine ⟨n, fun rounds hrounds => ?_⟩
    refine Parser.round_of_settle (transitions_ended statement) (h.nextToken (hn rounds hrounds))
      (transition?_ended_isEnd statement hend _) ?_
    cases hshows with
    | @cons top _ _ _ htop hbelow =>
      cases hbelow with
      | @cons root _ _ _ _ _ =>
        rw [show site behindStatements = top.site from htop.site.symm]
        exact Parser.settle_of_finish (by cases statement <;> rfl) (hfinish rounds) hstack
  exact .of_round hround (hstands₂.concludes_end hdone)

/-- A main file without statements. -/
theorem Stands.concludes_empty (h : Stands p t [rootLevel])
    (hnext : Run.Yields Scanner.next t token t')
    (hdone : Scanner.Done token t') : Parser.Concludes (site fileEntry) p (.series []) := by
  obtain ⟨n, hn⟩ := hnext
  obtain ⟨p', hshift, hstands⟩ := (h.reading t').shift_empty token
  refine .of_round ⟨n, fun rounds hrounds => ?_⟩ (hstands.concludes_last hdone)
  refine Parser.round_of_shift (List.cons_ne_nil _ _) (h.nextToken (hn rounds hrounds))
    ?_ rfl hshift
  rw [transition?_of_isEnd hdone.isEnd]
  rfl

end Machine

end Inclusion

end GrammarEngine
