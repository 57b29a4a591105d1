import GrammarEngine.Parser.Basic
import GrammarEngine.Parser.Source

/-!
# Parsing

The parser is a stack machine. In each round it looks at the next token. If the current state has
a transition for it, the token is shifted: a frame is pushed for every reference passed on the
way, and for the pattern the token belongs to unless that is the current one. Otherwise the
current pattern has to be complete: its frame is popped, its action is called, and the value goes
to the frame below. A token on which the rule starts over completes the pattern first, and is
then looked at again.

When only the frame of the start rule is left the input has to end, and the parse is done.

Main results:

* `length_completed` — filling in the values of a pattern neither adds nor drops one.
* `nextToken_of_no_source` — without a source there is nothing to parse.
-/

namespace GrammarEngine

namespace Parser

variable {σ α : Type}

/-! ## Diagnostics -/

/-- Where the construct being parsed began: that of the frame whose action is running, or else of
the innermost frame above the start rule; and without such a frame, where the source is. -/
def position [TokenSource σ] (p : Parser σ) : Option Position :=
  match p.reducing with
  | some frame => frame.first
  | none =>
    match p.stack with
    | some (frame :: _ :: _) => frame.first
    | _ => p.source.bind TokenSource.position

/-- Works on the source, which has to be there. -/
def onSource (work : Run σ α) : Run (Parser σ) α := fun p =>
  match p.source with
  | none => Run.fail .precondition p
  | some s =>
    let inner := work s
    ⟨inner.result, { p with source := some inner.state }, inner.trace⟩

/-- Works on the message log of the parser itself. -/
def onMessages (work : Run MessageLog α) : Run (Parser σ) α :=
  Run.zoom messages (fun log p => { p with messages := log }) work

/-- Reports an error with the source, or without one with the parser itself. -/
def error [TokenSource σ] (id text : String) (position : Option Position) (data : Payload) :
    Run (Parser σ) α := do
  let p ← Run.get
  let place := position.orElse fun _ => p.position
  if p.source.isSome then
    let never ← onSource (TokenSource.error id text place data)
    nomatch never
  else onMessages (MessageLog.error id text place none data [])

/-- Reports a warning with the source, or without one with the parser itself. -/
def warning [TokenSource σ] (id text : String) (position : Option Position) (data : Payload) :
    Run (Parser σ) Unit := do
  let p ← Run.get
  let place := position.orElse fun _ => p.position
  if p.source.isSome then onSource (TokenSource.warning id text place data)
  else discard (onMessages (MessageLog.add ⟨.warning, id, text, place, none, data, []⟩))

/-! ## Actions -/

/-- Performs what an action asks for. -/
def perform [TokenSource σ] : Script σ → Run (Parser σ) Value
  | .source work rest => do
    let v ← onSource work
    perform (rest v)
  | .here rest => do
    let p ← Run.get
    perform (rest p.position)
  | .slots rest => do
    let p ← Run.get
    perform (rest (p.values.getD []) (p.positions.getD []))
  | .error id text position data => error id text position data
  | .warning id text position data rest => do
    warning id text position data
    perform rest
  | .limit kinds rest => do
    Run.modify (limit kinds)
    perform rest
  | .amend rule clause rest => do
    amend rule clause
    perform rest
  | .dropRule rule rest => do
    dropRule rule
    perform rest
  | .declareRule rule clauses rest => do
    declareRule rule clauses
    perform rest
  | .rebuild rest => do
    updateTable
    perform rest
  | .fail fault => Run.fail fault
  | .done value => pure value

/-! ## The stack -/

/-- The frames of the parse under way, the innermost first. -/
def frames : Run (Parser σ) (List (Frame σ)) := do
  pure ((← Run.get).stack.getD [])

/-- Replaces the frames of the parse under way. -/
def setFrames (frames : List (Frame σ)) : Run (Parser σ) Unit :=
  Run.modify fun p => { p with stack := some frames }

/-- Changes the innermost frame, which has to be there. -/
def changeTop (f : Frame σ → Frame σ) : Run (Parser σ) Unit := do
  match ← frames with
  | top :: below => setFrames (f top :: below)
  | [] => Run.fail .precondition

/-- The identities of the innermost states, at most four, from the outermost of them on. -/
def topKeys : Run (Parser σ) (List Key) := do
  pure (((← frames).take 4).map Frame.key).reverse

/-- The pattern of a state. -/
def patternOf? (p : Parser σ) (key : Key) : Option (Pattern (Action σ)) := do
  let r ← p.rule? key.rule
  r.patterns[← key.pattern]?

/-- Enters the pattern of a state with a token. A deprecated pattern is warned about, and a removed
one is an error. -/
def pushFrame [TokenSource σ] (site : Site) (token : Token) : Run (Parser σ) Unit := do
  let p ← Run.get
  match p.patternOf? site.state.key with
  | none => Run.fail .precondition
  | some pattern =>
    let keyword := match pattern.keyword with
      | none | some "" => token.value.shown
      | some word => word
    match pattern.support with
    | .deprecated =>
      warning "deprecated_keyword"
        ("The keyword '" ++ keyword ++
          "' has been deprecated! See the reference manual for details.")
        token.position .null
    | .removed =>
      error "removed_keyword"
        ("The keyword '" ++ keyword ++
          "' is no longer supported! See the reference manual for details.")
        token.position .null
    | .experimental | .beta | .supported => pure ()
    setFrames ({ site := site, action := pattern.action, first := token.position } :: (← frames))

/-- The next token of the source. One of a kind that is not accepted is an error. -/
def nextToken [TokenSource σ] (rounds : Nat) : Run (Parser σ) Token := do
  let token ← onSource (TokenSource.next rounds)
  if (← Run.get).blocked.contains token.kind then
    error "unsupported_token"
      ("The token " ++ token.value.shown ++ " is not supported in this context.")
      token.position .null
  else pure token

/-! ## Shifting and reducing -/

/-- Another state of the table of a site. -/
def follow (site : Site) (key : Key) : Run (Parser σ) Site :=
  Run.orFail (site.follow? key) .precondition

/-- Goes through the references that a transition skips. The first one belongs to the pattern of the
current frame, if that has one; for the others frames are pushed. -/
def enterSkipped [TokenSource σ] (site : Site) (token : Token) :
    Bool → List Key → Run (Parser σ) Unit
  | _, [] => pure ()
  | moves, key :: rest => do
    let next ← follow site key
    -- The first reference skipped is a later element of the pattern of the current frame.
    if moves then changeTop ({ · with site := next }) else pushFrame next token
    enterSkipped site token false rest

/-- Puts the token of a transition into its slot of the current frame. -/
def deposit (t : Transition) (token : Token) : Run (Parser σ) Unit := do
  changeTop (·.insert t.target.index token.value token.position false)
  Run.emit (.shifted (← topKeys) token.value t.target)

/-- Shifts a token along a transition, and returns the state reached. -/
def shift [TokenSource σ] (site : Site) (t : Transition) (token : Token) : Run (Parser σ) Site := do
  let inPattern := site.state.key.pattern.isSome
  enterSkipped site token (inPattern && !t.loopBack) t.skipped
  let target ← follow site t.target
  if t.loopBack || !t.skipped.isEmpty || !inPattern then pushFrame target token
  else changeTop ({ · with site := target })
  deposit t token
  pure target

/-- A row filled up to a length. -/
def padded {β : Type} (filling : β) (length : Nat) (row : List β) : List β :=
  row ++ List.replicate (length - row.length) filling

/-- The value of an element of a complete pattern. An element never seen has none; but where it
refers to a repeatable rule, that is an empty series. -/
def filled (g : Grammar (Action σ)) (d : Descriptor) (v : Value) : Except Fault Value :=
  if v.isNothing && !d.isTerminal then
    match g.find? d.name with
    | some r => .ok (if r.repeatable then .series [] else v)
    | none => .error .missingKey
  else .ok v

/-- The values given to the action of a frame, from those of the elements of its pattern. -/
def completed (g : Grammar (Action σ)) : List Descriptor → List Value → Except Fault (List Value)
  | d :: tokens, v :: values => do
    let v' ← filled g d v
    let rest ← completed g tokens values
    pure (v' :: rest)
  | _, values => .ok values

theorem length_completed {g : Grammar (Action σ)} {tokens : List Descriptor}
    {values result : List Value}
    (h : completed g tokens values = .ok result) : result.length = values.length := by
  induction tokens generalizing values result with
  | nil => cases h; rfl
  | cons d tokens ih =>
    cases values with
    | nil => cases h; rfl
    | cons v values =>
      simp only [completed] at h
      obtain ⟨v', _, h⟩ := bind_eq_ok.1 h
      obtain ⟨rest, hrest, h⟩ := bind_eq_ok.1 h
      cases h
      simp [ih hrest]

/-- Calls the action of a frame, if it has one, with the values of its pattern. -/
def callAction [TokenSource σ] (frame : Frame σ) (values : List Value)
    (positions : List (Option Position)) : Run (Parser σ) Value :=
  match frame.action with
  | none => pure .nothing
  | some action => do
    Run.modify fun p =>
      { p with values := some values, positions := some positions, reducing := some frame }
    Run.thenAlways (perform (action values)) fun p => { p with reducing := none }

/-- Gives a token that was already read back to the source. -/
def giveBack [TokenSource σ] : Option Token → Run (Parser σ) Unit
  | some token => onSource (TokenSource.pushBack token)
  | none => pure ()

/-- Makes sure that the input ends here. -/
def expectEnd [TokenSource σ] (rounds : Nat) : Run (Parser σ) Unit := do
  let next ← nextToken rounds
  if next.isEnd then pure ()
  else
    error "unexpctd_token"
      ("Unexpected token '" ++ next.value.shown ++ "' found. Expecting end of input.")
      next.position .null

/-- Whether a rule may come several times, as it is declared at present; a rule that is not known
any more is taken as it was recorded. -/
def repeats (p : Parser σ) (id : RuleId) (recorded : Bool) : Bool :=
  (p.rule? id).elim recorded Rule.repeatable

/-- Completes a frame that was taken off the stack: its action is called, and the value goes to the
frame that is now the innermost one. -/
def reduce [TokenSource σ] (frame : Frame σ) : Run (Parser σ) Unit := do
  let state := frame.site.state
  if state.key.pattern.isNone then Run.fail .precondition
  else
    let count := state.tokens.length
    let values ← Run.ofExcept
      (completed (← Run.get).grammar state.tokens (padded .nothing count frame.values))
    let result ← callAction frame values (padded none count frame.positions)
    -- The action may have marked the rule as repeatable.
    let several := (← Run.get).repeats state.key.rule state.repeats
    changeTop fun parent => parent.insert parent.key.index result frame.first several
    Run.emit (.reduced (← topKeys) state.key.rule.name result)

/-- Completes the innermost frame. A token already read is returned first. Says whether that was the
frame of the start rule, which is complete when the input ends. -/
def finish [TokenSource σ] (rounds : Nat) (token : Option Token) : Run (Parser σ) Bool := do
  giveBack token
  match ← frames with
  | [] => Run.fail .outOfRange
  | [root] =>
    -- The frame of the start rule comes back only if the input ends here.
    setFrames []
    expectEnd rounds
    setFrames [root]
    pure true
  | frame :: below =>
    -- While its action runs the frame is not on the stack any more.
    setFrames below
    reduce frame
    pure false

/-! ## The machine -/

/-- The state of the innermost frame. -/
def topSite : Run (Parser σ) Site := do
  match ← frames with
  | top :: _ => pure top.site
  | [] => Run.fail .outOfRange

/-- What is done where no transition leads on: the pattern is completed, if it may end here. -/
def settle [TokenSource σ] (rounds : Nat) (site : Site) (token : Option Token) :
    Run (Parser σ) (Site ⊕ Unit) := do
  if !site.state.reducible then
    let found ← match token with
      | some t => pure t
      | none => nextToken rounds
    error "no_reduce"
      ("Unexpected token '" ++ found.value.shown ++ "' found. Expecting one of " ++
        ", ".intercalate site.state.expected)
      found.position .null
  else if ← finish rounds token then pure (.inr ())
  else
    match ← frames with
    -- The start rule is complete, and nothing but the end of the input may follow.
    | [_] =>
      if ← finish rounds none then pure (.inr ()) else pure (.inl (← topSite))
    | _ => pure (.inl (← topSite))

/-- Goes on from a state with a token along the transition there is for it, if there is one. -/
def proceed [TokenSource σ] (rounds : Nat) (site : Site) (token : Token) :
    Run (Parser σ) (Site ⊕ Unit) := do
  match site.state.transition? (← Run.get).keywordKinds token with
  | some t => pure (.inl (← shift site t token))
  | none => settle rounds site (some token)

/-- The state of the same identity in the current table; where there is none, the state itself. -/
def renewed (p : Parser σ) (site : Site) : Site :=
  match p.table.find? site.state.key with
  | some state => ⟨p.table, state⟩
  | none => site

/-- One round, from a state on: the next state, or the end of the parse. -/
def round [TokenSource σ] (rounds : Nat) (site : Site) : Run (Parser σ) (Site ⊕ Unit) := do
  if site.state.transitions.isEmpty then settle rounds site none
  else
    let token ← nextToken rounds
    match site.state.transition? (← Run.get).keywordKinds token with
    | some t =>
      if t.loopBack then
        -- The token starts the rule over: complete what there is, then look at the next token
        -- again. The action may have changed the tables, or have put another input in front.
        Run.emit (.loopedBack site.state.key token.value)
        discard (finish rounds (some token))
        let again := (← Run.get).renewed site
        proceed rounds again (← nextToken rounds)
      else pure (.inl (← shift site t token))
    | none => settle rounds site (some token)

/-- The start rule of a parse, with the table up to date. -/
def prepare (rule : String) : Run (Parser σ) (Rule (Action σ)) := do
  let p ← Run.get
  match p.grammar.find? rule with
  | none => Run.refuse (.unknownStart rule)
  | some r =>
    if p.isStale then updateTable
    pure r

/-- Parses the tokens of a source as an instance of a rule, in at most `rounds` rounds, and returns
its value. A repeatable rule that has no instance is an empty series. -/
def parse [TokenSource σ] (rounds : Nat) (rule : String) (source : σ) : Run (Parser σ) Value := do
  let r ← prepare rule
  Run.modify fun p => { p with source := some source }
  let table := (← Run.get).table
  match table.find? ⟨r.id, none, 0⟩ with
  | none => Run.refuse (.noStartState rule)
  | some state =>
    let start : Site := ⟨table, state⟩
    setFrames [{ site := start, action := none }]
    Run.iterate (round rounds) rounds start
    match (← frames).getLast? with
    | none => Run.fail .outOfRange
    | some root =>
      let several := (← Run.get).repeats r.id r.repeatable
      pure (root.values.head?.getD (if several then .series [] else .nothing))

theorem nextToken_of_no_source [TokenSource σ] {p : Parser σ} (rounds : Nat) (h : p.source = none) :
    (nextToken rounds).run p = ⟨.error .precondition, p, []⟩ := by
  have hs : (onSource (TokenSource.next rounds) : Run (Parser σ) Token).run p =
      ⟨.error .precondition, p, []⟩ := by
    simp [onSource, Run.run, h, Run.fail]
  simp [nextToken, hs]

end Parser

end GrammarEngine
