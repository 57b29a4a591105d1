import GrammarEngine.Proofs.Parser.Licence

/-!
# What a parse leaves behind

A parse whose actions do not change the grammar leaves traces on the parser all the same: it makes
the table, fills the memo, and where it stops, by a fault or not, the stack, the source, the values
of the latest action and the kinds of tokens not accepted are what they happened to be. Everything
else is as it was, and a table that counts as current is the one made of the grammar.

Both are shown of every function of the machine: whatever it does, the parser stays the same once it
is cleared (`Parser.cleared`), and its table stays sound (`Parser.Sound`). Actions may work on the
source, ask for values and places, report, limit the kinds of tokens, rebuild the table and give up
(`Script.Settled`).

Main results:

* `updateTable_run` — all that bringing the table up to date can come to.
* `spares_perform` — settled actions.
* `spares_round` — rounds of the machine.
* `parse_leaves` — a whole parse, however it ends.
-/

namespace GrammarEngine

open Run

variable {σ α : Type}

/-- A script that does not change the grammar. -/
inductive Script.Settled : Script σ → Prop
  | source {work : Run σ Value} {rest : Value → Script σ} (hrest : ∀ v, (rest v).Settled) :
      Settled (.source work rest)
  | here {rest : Option Position → Script σ}
      (hrest : ∀ place, (rest place).Settled) : Settled (.here rest)
  | slots {rest : List Value → List (Option Position) → Script σ}
    (hrest : ∀ values positions, (rest values positions).Settled) : Settled (.slots rest)
  | error (id text : String) (position : Option Position) (data : Payload) :
      Settled (.error id text position data)
  | warning (id text : String) (position : Option Position) (data : Payload) {rest : Script σ}
      (hrest : rest.Settled) : Settled (.warning id text position data rest)
  | limit (kinds : List String) {rest : Script σ} (hrest : rest.Settled) :
      Settled (.limit kinds rest)
  | rebuild {rest : Script σ} (hrest : rest.Settled) : Settled (.rebuild rest)
  | fail (fault : Fault) : Settled (.fail fault)
  | done (value : Value) : Settled (.done value)

/-- An action all of whose scripts leave the grammar alone; without an action nothing is done. -/
def Action.Settled (action : Option (Action σ)) : Prop :=
  ∀ a, action = some a → ∀ values, (a values).Settled

/-- Without an action nothing is changed. -/
theorem Action.settled_none : Action.Settled (none : Option (Action σ)) := nofun

namespace Parser

/-- A parser without the traces of parses. -/
def cleared (p : Parser σ) : Parser σ := { p.reset with memo := [], table := [], isStale := true }

/-- The table and the memo are what comes of compiling the grammar, and its rules pass the check. -/
def Made (p : Parser σ) : Prop :=
  p.grammar.rules.forM p.checkRule = .ok () ∧
    ∃ trace, p.grammar.compile.run [] = ⟨.ok p.table, p.memo, trace⟩

/-- A table that counts as current was made of the grammar as it is. -/
def Sound (p : Parser σ) : Prop := p.isStale = false → p.Made

/-- The actions of all rules leave the grammar alone. -/
def Settled (p : Parser σ) : Prop :=
  ∀ r ∈ p.grammar.rules ++ p.former, ∀ q ∈ r.patterns, Action.Settled q.action

/-- A parse is under way on a parser that is `q` when it is cleared. -/
structure UnderWay (q p : Parser σ) : Prop where
  cleared : p.cleared = q
  sound : p.Sound
  source : p.source.isSome
  frames : ∀ f ∈ p.stack.getD [], Action.Settled f.action

/-- A run spares all of a parser but what parses leave behind. -/
def Spares (q : Parser σ) (x : Run (Parser σ) α) : Prop := Keeps (UnderWay q) x

variable {q p : Parser σ}

/-- The pattern of a frame has a settled action. -/
theorem Settled.patternOf? (hp : p.Settled) {key : Key} {pattern : Pattern (Action σ)}
    (h : p.patternOf? key = some pattern) : Action.Settled pattern.action := by
  obtain ⟨r, hr, hpattern⟩ := mem_of_patternOf? h
  exact hp r hr pattern hpattern

-- ---------------------------------------------------------------------------
-- The table
-- ---------------------------------------------------------------------------

/-- What becomes of the frames of a parse under way when the table is replaced. -/
def moveStack (table : Table) :
    Option (List (Frame σ)) → Except Fault Unit × Option (List (Frame σ))
  | none => (.ok (), none)
  | some frames =>
    let (moved, lost) := restore table frames.reverse
    (match lost with
      | some key => .error (.grammar (.lostState key))
      | none => .ok (), some moved.reverse)

/-- Bringing the table up to date, in one piece. -/
theorem updateTable_run (p : Parser σ) : updateTable.run p =
    match p.grammar.rules.forM p.checkRule with
    | .error fault => ⟨.error fault, { p with memo := [] }, []⟩
    | .ok () =>
      match p.grammar.compile.run [] with
      | ⟨.error fault, memo, trace⟩ => ⟨.error fault, { p with memo := memo }, trace⟩
      | ⟨.ok table, memo, trace⟩ =>
        ⟨(moveStack table p.stack).1,
          { p with
            memo := memo, table := table, isStale := false, stack := (moveStack table p.stack).2 },
          trace⟩ := by
  have hcompile (p : Parser σ) : compileTable.run p =
      ⟨(p.grammar.compile.run p.memo).result,
        { p with memo := (p.grammar.compile.run p.memo).state },
        (p.grammar.compile.run p.memo).trace⟩ := by
    rw [compileTable, run_bind, run_get]
    simp only [List.append_nil]
    rfl
  have hcheck : ({ p with memo := [] } : Parser σ).checkRule = p.checkRule := rfl
  simp only [updateTable, run_bind, run_modify, run_get, hcheck]
  cases p.grammar.rules.forM p.checkRule with
  | error fault => rfl
  | ok u =>
    have hok : (ofExcept (.ok u) : Run (Parser σ) Unit) = pure u := rfl
    simp only [hok, run_pure, hcompile]
    rcases p.grammar.compile.run [] with ⟨fault | table, memo, trace⟩
    · simp
    · cases hstack : p.stack with
      | none => simp [moveStack]
      | some frames =>
        rcases hmoved : restore table frames.reverse with ⟨moved, _ | key⟩
        · simp [moveStack, hmoved]
        · simp [moveStack, hmoved]

/-- Frames that move to another table keep their actions. -/
theorem settled_moveStack {table : Table} {stack : Option (List (Frame σ))}
    (h : ∀ f ∈ stack.getD [], Action.Settled f.action) :
    ∀ f ∈ (moveStack table stack).2.getD [], Action.Settled f.action := by
  cases stack with
  | none => exact h
  | some frames =>
    intro f hf
    obtain ⟨f', hf', heq⟩ := exists_action_of_mem_restore hf
    exact heq ▸ h f' hf'

/-- Only the table, the memo and the frames of a parse under way are touched, and the table
is sound again. -/
theorem updateTable_leaves (hp : p.Sound) : updateTable.Leaves p fun _ t =>
    t.cleared = p.cleared ∧ t.Sound ∧ t.source = p.source ∧
      ((∀ f ∈ p.stack.getD [], Action.Settled f.action) →
        ∀ f ∈ t.stack.getD [], Action.Settled f.action) := by
  unfold Leaves
  rw [updateTable_run]
  cases hcheck : p.grammar.rules.forM p.checkRule with
  | error fault =>
    refine ⟨rfl, fun hfresh => ?_, rfl, id⟩
    rw [(hp hfresh).1] at hcheck
    cases hcheck
  | ok u =>
    rcases hcompile : p.grammar.compile.run [] with ⟨fault | table, memo, trace⟩
    · refine ⟨rfl, fun hfresh => ?_, rfl, id⟩
      obtain ⟨-, trace', hmade⟩ := hp hfresh
      rw [hmade] at hcompile
      cases hcompile
    · exact ⟨rfl, fun _ => ⟨hcheck, trace, hcompile⟩, rfl, settled_moveStack⟩

/-- Bringing the table up to date touches what is cleared, and the frames keep their actions. -/
theorem spares_updateTable : Spares q (updateTable : Run (Parser σ) Unit) := by
  intro p hp
  refine (updateTable_leaves hp.sound).mono fun _ t ⟨hcleared, hsound, hsource, hframes⟩ => ?_
  exact ⟨hcleared.trans hp.cleared, hsound, hsource ▸ hp.source, hframes hp.frames⟩

-- ---------------------------------------------------------------------------
-- The source and the stack
-- ---------------------------------------------------------------------------

/-- The state may be looked at. -/
theorem spares_get {f : Parser σ → Run (Parser σ) α} (h : ∀ p, UnderWay q p → Spares q (f p)) :
    Spares q (get >>= f) := keeps_get_bind fun p hp => h p hp p hp

/-- A result that is at hand touches nothing. -/
theorem spares_ofExcept (result : Except Fault α) : Spares q (ofExcept result) := fun _ hp => hp

/-- Nor does a value that has to be there. -/
theorem spares_orFail (value : Option α) (fault : Fault) : Spares q (orFail value fault) := by
  cases value with
  | none => exact keeps_fail fault
  | some a => exact keeps_pure a

/-- Nor an event. -/
theorem spares_emit (event : Event) : Spares q (emit event) := fun _ hp => hp

/-- The source is among what a parse leaves behind. -/
theorem spares_onSource (work : Run σ α) : Spares q (onSource work) := by
  intro p hp
  obtain ⟨s, hs⟩ := Option.isSome_iff_exists.mp hp.source
  unfold Leaves
  rw [onSource_run hs]
  exact ⟨hp.cleared, hp.sound, rfl, hp.frames⟩

/-- The frames of a parse under way have settled actions. -/
theorem spares_frames {k : List (Frame σ) → Run (Parser σ) α}
    (h : ∀ fs, (∀ f ∈ fs, Action.Settled f.action) → Spares q (k fs)) :
    Spares q (frames >>= k) := by
  unfold frames
  rw [bind_assoc]
  refine spares_get fun p hp => ?_
  rw [pure_bind]
  exact h _ hp.frames

/-- Frames with settled actions may replace them. -/
theorem spares_setFrames {fs : List (Frame σ)} (h : ∀ f ∈ fs, Action.Settled f.action) :
    Spares q (setFrames fs : Run (Parser σ) Unit) :=
  keeps_modify fun _ hp => ⟨hp.cleared, hp.sound, hp.source, h⟩

/-- The innermost frame may change, if it keeps its action. -/
theorem spares_changeTop {f : Frame σ → Frame σ} (hf : ∀ frame, (f frame).action = frame.action) :
    Spares q (changeTop f : Run (Parser σ) Unit) := by
  refine spares_frames fun fs hfs => ?_
  split
  · next top below =>
    obtain ⟨htop, hbelow⟩ := List.forall_mem_cons.mp hfs
    exact spares_setFrames (List.forall_mem_cons.mpr ⟨hf top ▸ htop, hbelow⟩)
  · exact keeps_fail _

/-- Of the innermost frames only the keys are looked at. -/
theorem spares_topKeys {k : List Key → Run (Parser σ) α} (h : ∀ keys, Spares q (k keys)) :
    Spares q (topKeys >>= k) := by
  unfold topKeys
  rw [bind_assoc]
  refine spares_frames fun fs _ => ?_
  rw [pure_bind]
  exact h _

/-- Looking up where the parse stands touches nothing. -/
theorem spares_topSite : Spares q (topSite : Run (Parser σ) Site) := by
  unfold topSite
  refine spares_frames fun fs _ => ?_
  split
  · exact keeps_pure _
  · exact keeps_fail _

section Machine

variable [TokenSource σ]

-- ---------------------------------------------------------------------------
-- Reports and actions
-- ---------------------------------------------------------------------------

/-- An error is reported with the source of the parse under way. -/
theorem spares_error (id text : String) (position : Option Position) (data : Payload) :
    Spares q (error id text position data : Run (Parser σ) α) := by
  unfold error
  refine spares_get fun p hp => ?_
  dsimp only
  rw [if_pos hp.source]
  exact keeps_bind (spares_onSource _) fun never => nomatch never

/-- And so is a warning. -/
theorem spares_warning (id text : String) (position : Option Position) (data : Payload) :
    Spares q (warning id text position data : Run (Parser σ) Unit) := by
  unfold warning
  refine spares_get fun p hp => ?_
  dsimp only
  rw [if_pos hp.source]
  exact spares_onSource _

/-- **Settled actions** spare the grammar, whatever else they do. -/
theorem spares_perform {script : Script σ} (h : script.Settled) : Spares q (perform script) := by
  induction h with
  | source _ ih => exact keeps_bind (spares_onSource _) ih
  | here _ ih => exact spares_get fun p _ => ih _
  | slots _ ih => exact spares_get fun p _ => ih _ _
  | error id text position data => exact spares_error id text position data
  | warning id text position data _ ih =>
    exact keeps_bind (spares_warning id text position data) fun _ => ih
  | limit kinds _ ih =>
    exact keeps_bind
      (keeps_modify fun _ hp => ⟨hp.cleared, hp.sound, hp.source, hp.frames⟩) fun _ => ih
  | rebuild _ ih => exact keeps_bind spares_updateTable fun _ => ih
  | fail fault => exact keeps_fail fault
  | done value => exact keeps_pure value

-- ---------------------------------------------------------------------------
-- The machine
-- ---------------------------------------------------------------------------

/-- The next token is taken from the source. -/
theorem spares_nextToken (rounds : Nat) : Spares q (nextToken rounds : Run (Parser σ) Token) := by
  unfold nextToken
  refine keeps_bind (spares_onSource _) fun token => spares_get fun p _ => ?_
  split
  · exact spares_error _ _ _ _
  · exact keeps_pure token

/-- A token is given back to the source. -/
theorem spares_giveBack (token : Option Token) :
    Spares q (giveBack token : Run (Parser σ) Unit) := by
  cases token with
  | none => exact keeps_pure ()
  | some token => exact spares_onSource _

/-- Behind a parse one more token is taken. -/
theorem spares_expectEnd (rounds : Nat) : Spares q (expectEnd rounds : Run (Parser σ) Unit) := by
  unfold expectEnd
  refine keeps_bind (spares_nextToken rounds) fun token => ?_
  split
  · exact keeps_pure ()
  · exact spares_error _ _ _ _

/-- **Calling an action** carries out a settled script, whatever comes of it. -/
theorem spares_callAction {frame : Frame σ} (hframe : Action.Settled frame.action)
    (values : List Value) (positions : List (Option Position)) :
    Spares q (callAction frame values positions : Run (Parser σ) Value) := by
  unfold callAction
  split
  · exact keeps_pure _
  · next action haction =>
    refine keeps_bind (keeps_modify fun _ hp => ⟨hp.cleared, hp.sound, hp.source, hp.frames⟩)
      fun _ p hp => ?_
    obtain ⟨hcleared, hsound, hsource, hframes⟩ :=
      spares_perform (hframe action haction values) p hp
    exact ⟨hcleared, hsound, hsource, hframes⟩

/-- Reducing calls an action, and puts the value into the frame below. -/
theorem spares_reduce {frame : Frame σ} (hframe : Action.Settled frame.action) :
    Spares q (reduce frame : Run (Parser σ) Unit) := by
  unfold reduce
  dsimp only
  split
  · exact keeps_fail _
  · refine spares_get fun p _ => keeps_bind (spares_ofExcept _) fun values => ?_
    refine keeps_bind (spares_callAction hframe _ _) fun result => spares_get fun p _ => ?_
    exact keeps_bind (spares_changeTop fun _ => rfl) fun _ => spares_topKeys fun _ => spares_emit _

/-- The frame that is finished had a settled action. -/
theorem spares_finish (rounds : Nat) (token : Option Token) :
    Spares q (finish rounds token : Run (Parser σ) Bool) := by
  unfold finish
  refine keeps_bind (spares_giveBack token) fun _ => spares_frames fun fs hfs => ?_
  split
  · exact keeps_fail _
  · refine keeps_bind (spares_setFrames nofun) fun _ =>
      keeps_bind (spares_expectEnd rounds) fun _ => ?_
    exact keeps_bind (spares_setFrames hfs) fun _ => keeps_pure true
  · obtain ⟨hframe, hbelow⟩ := List.forall_mem_cons.mp hfs
    refine keeps_bind (spares_setFrames hbelow) fun _ =>
      keeps_bind (spares_reduce hframe) fun _ => ?_
    exact keeps_pure false

/-- Settling finishes frames, or reports an error. -/
theorem spares_settle (rounds : Nat) (site : Site) (token : Option Token) :
    Spares q (settle rounds site token : Run (Parser σ) (Site ⊕ Unit)) := by
  have hon : Spares q (topSite >>= fun site => pure (.inl site) : Run (Parser σ) (Site ⊕ Unit)) :=
    keeps_bind spares_topSite fun _ => keeps_pure _
  unfold settle
  split
  · cases token with
    | none => exact keeps_bind (spares_nextToken rounds) fun _ => spares_error _ _ _ _
    | some token => exact keeps_bind (keeps_pure token) fun _ => spares_error _ _ _ _
  · refine keeps_bind (spares_finish rounds token) fun done => ?_
    split
    · exact keeps_pure _
    · refine spares_frames fun fs _ => ?_
      split
      · refine keeps_bind (spares_finish rounds none) fun done => ?_
        split
        · exact keeps_pure _
        · exact hon
      · exact hon

section Patterns

variable (hq : q.Settled)

include hq

/-- A frame gets the action of its pattern. -/
theorem spares_pushFrame (site : Site) (token : Token) :
    Spares q (pushFrame site token : Run (Parser σ) Unit) := by
  have hpush {pattern : Pattern (Action σ)} (hpattern : Action.Settled pattern.action) :
      Spares q (do
        setFrames ({ site := site, action := pattern.action, first := token.position } ::
          (← frames)) : Run (Parser σ) Unit) :=
    spares_frames fun fs hfs => spares_setFrames (List.forall_mem_cons.mpr ⟨hpattern, hfs⟩)
  unfold pushFrame
  refine spares_get fun p hp => ?_
  split
  · exact keeps_fail _
  · next pattern hpattern =>
    have hknown : p.cleared.patternOf? site.state.key = some pattern := hpattern
    have hsettled := hq.patternOf? (hp.cleared ▸ hknown)
    dsimp only
    split
    · exact keeps_bind (spares_warning _ _ _ _) fun _ => hpush hsettled
    · exact keeps_bind (spares_error _ _ _ _) fun _ => hpush hsettled
    all_goals exact hpush hsettled

/-- Entering patterns pushes frames with the actions of these. -/
theorem spares_enterSkipped (site : Site) (token : Token) (moves : Bool) (skipped : List Key) :
    Spares q (enterSkipped site token moves skipped : Run (Parser σ) Unit) := by
  induction skipped generalizing moves with
  | nil => exact keeps_pure ()
  | cons key rest ih =>
    unfold enterSkipped
    refine keeps_bind (spares_orFail _ _) fun next => ?_
    dsimp only
    split
    · exact keeps_bind (spares_changeTop fun _ => rfl) fun _ => ih false
    · exact keeps_bind (spares_pushFrame hq next token) fun _ => ih false

/-- Shifting enters patterns and fills a slot. -/
theorem spares_shift (site : Site) (t : Transition) (token : Token) :
    Spares q (shift site t token : Run (Parser σ) Site) := by
  have hdeposit : Spares q (deposit t token : Run (Parser σ) Unit) :=
    keeps_bind (spares_changeTop fun _ => rfl) fun _ => spares_topKeys fun _ => spares_emit _
  rw [shift_eq]
  exact keeps_bind (spares_enterSkipped hq _ _ _ _) fun _ =>
    keeps_bind hdeposit fun _ => spares_orFail _ _

/-- Going on with a token shifts it or settles. -/
theorem spares_proceed (rounds : Nat) (site : Site) (token : Token) :
    Spares q (proceed rounds site token : Run (Parser σ) (Site ⊕ Unit)) := by
  unfold proceed
  refine spares_get fun p _ => ?_
  split
  · exact keeps_bind (spares_shift hq _ _ _) fun _ => keeps_pure _
  · exact spares_settle _ _ _

/-- **After a round**, also after one that ends with a fault, the parser is the same when
it is cleared. -/
theorem spares_round (rounds : Nat) (site : Site) :
    Spares q (round rounds site : Run (Parser σ) (Site ⊕ Unit)) := by
  unfold round
  split
  · exact spares_settle _ _ _
  · refine keeps_bind (spares_nextToken rounds) fun token => spares_get fun p _ => ?_
    split
    · split
      · refine keeps_bind (spares_emit _) fun _ =>
          keeps_bind (keeps_discard (spares_finish _ _)) fun _ => ?_
        refine spares_get fun p _ => keeps_bind (spares_nextToken rounds) fun _ => ?_
        exact spares_proceed hq _ _ _
      · exact keeps_bind (spares_shift hq _ _ _) fun _ => keeps_pure _
    · exact spares_settle _ _ _

end Patterns

omit [TokenSource σ] in
/-- The start rule is there or not, and the table can be made or not; in any case the parser is the
same when it is cleared. -/
theorem prepare_leaves (rule : String) (hp : p.Sound) :
    (prepare rule : Run (Parser σ) (Rule (Action σ))).Leaves p fun _ t =>
      t.cleared = p.cleared ∧ t.Sound := by
  unfold prepare
  rw [leaves_get_bind]
  cases p.grammar.find? rule with
  | none => exact ⟨rfl, hp⟩
  | some r =>
    dsimp only
    split
    · refine (updateTable_leaves hp).bind (fun _ t h => ⟨h.1, h.2.1⟩) fun _ t h => ⟨h.1, h.2.1⟩
    · exact ⟨rfl, hp⟩

/-- The frames that an earlier parse has left are replaced, before any of their actions
could run. -/
theorem parseFrom_leaves (rounds : Nat) (rule : String) (r : Rule (Action σ)) (hp : p.Sound)
    (hsource : p.source.isSome) (hsettled : p.cleared.Settled) :
    (parseFrom rounds rule r).Leaves p fun _ t => t.cleared = p.cleared ∧ t.Sound := by
  unfold parseFrom
  rw [leaves_get_bind]
  dsimp only
  split
  · exact ⟨rfl, hp⟩
  · next state _ =>
    rw [setFrames, leaves_modify_bind]
    have hstart : UnderWay p.cleared { p with
        stack := some [{ site := ⟨p.table, state⟩, action := none }] } :=
      ⟨rfl, hp, hsource, List.forall_mem_singleton.mpr Action.settled_none⟩
    have hrounds : Spares p.cleared (Run.iterate (round rounds) rounds ⟨p.table, state⟩) :=
      keeps_iterate (spares_round hsettled rounds) _ _
    refine Leaves.mono (keeps_bind hrounds (fun _ => spares_frames fun fs _ => ?_) _ hstart)
      fun _ t ht => ⟨ht.cleared, ht.sound⟩
    split
    · exact keeps_fail _
    · exact spares_get fun _ _ => keeps_pure _

/-- **A whole parse**, however it ends, leaves a parser that is the same when it is cleared, and its
table is sound. -/
theorem parse_leaves (rounds : Nat) (rule : String) (source : σ) (hp : p.Sound)
    (hsettled : p.cleared.Settled) :
    (parse rounds rule source).Leaves p fun _ t => t.cleared = p.cleared ∧ t.Sound := by
  rw [parse_eq]
  refine (prepare_leaves rule hp).bind (fun r t ht => ?_) fun _ _ ht => ht
  obtain ⟨hcleared, hsound⟩ := ht
  rw [leaves_modify_bind, ← hcleared]
  exact parseFrom_leaves (p := { t with source := some source }) rounds rule r hsound rfl
    (hcleared ▸ hsettled)

end Machine

end Parser

end GrammarEngine
