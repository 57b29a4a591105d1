import GrammarEngine.Parser.Drive
import GrammarEngine.Proofs.Returns

/-!
# What the machine does when it returns

Each operation of the machine is described once, by what it leaves when it returns: reading a token,
pushing frames along a transition, shifting, completing a frame, and the round that is made of them.
Actions are left open here, and so is the source of tokens.

Reports are no obstacle: an error does not return, and a warning changes nothing but the source it
is reported with (`Warned`) and the message log.

Main results:

* `shift_returns` — a shift moves or pushes frames along the route of its transition.
* `finish_returns` — a frame that is completed hands its value to the frame below; the
  last one stays.
* `round_returns` — the three things a round can do.
-/

namespace GrammarEngine

namespace Parser

variable {σ α : Type}

-- ---------------------------------------------------------------------------
-- What reports and shifts leave alone
-- ---------------------------------------------------------------------------

/-- What becomes of a source when warnings are reported with it. -/
inductive Warned [TokenSource σ] : σ → σ → Prop
  | refl (s : σ) : Warned s s
  | report {s s' s'' : σ} {id text : String} {place : Option Position} {data : Payload}
      (h : Warned s s') (hreport : (TokenSource.warning id text place data).Returns s' () s'') :
      Warned s s''

theorem Warned.trans [TokenSource σ] {s s' s'' : σ} (h : Warned s s') (h' : Warned s' s'') :
    Warned s s'' := by
  induction h' with
  | refl => exact h
  | report _ hreport ih => exact .report ih hreport

/-- What stays while tokens are shifted: the grammar, the table, and the source but for warnings. -/
structure Kept [TokenSource σ] (p p' : Parser σ) : Prop where
  grammar : p'.grammar = p.grammar
  former : p'.former = p.former
  keywordKinds : p'.keywordKinds = p.keywordKinds
  table : p'.table = p.table
  source : ∀ s, p.source = some s → ∃ s', p'.source = some s' ∧ Warned s s'

namespace Kept

variable [TokenSource σ] {p p' p'' : Parser σ}

theorem refl (p : Parser σ) : Kept p p := ⟨rfl, rfl, rfl, rfl, fun s hs => ⟨s, hs, .refl s⟩⟩

/-- The stack is no part of what is kept. -/
theorem setStack (p : Parser σ) (stack : Option (List (Frame σ))) :
    Kept p { p with stack := stack } :=
  ⟨rfl, rfl, rfl, rfl, fun s hs => ⟨s, hs, .refl s⟩⟩

theorem trans (h : Kept p p') (h' : Kept p' p'') : Kept p p'' where
  grammar := h'.grammar.trans h.grammar
  former := h'.former.trans h.former
  keywordKinds := h'.keywordKinds.trans h.keywordKinds
  table := h'.table.trans h.table
  source s hs := by
    obtain ⟨s', hs', hw⟩ := h.source s hs
    obtain ⟨s'', hs'', hw'⟩ := h'.source s' hs'
    exact ⟨s'', hs'', hw.trans hw'⟩

/-- What is kept determines the rules that are known. -/
theorem rule? (h : Kept p p') (id : RuleId) : p'.rule? id = p.rule? id := by
  unfold Parser.rule?
  rw [h.grammar, h.former]

/-- And with them the patterns. -/
theorem patternOf? (h : Kept p p') (k : Key) : p'.patternOf? k = p.patternOf? k := by
  unfold Parser.patternOf?
  rw [h.rule?]

end Kept

-- ---------------------------------------------------------------------------
-- The source and the stack
-- ---------------------------------------------------------------------------

/-- Work on the source is done on the one there is. -/
theorem onSource_run {work : Run σ α} {p : Parser σ} {s : σ} (hs : p.source = some s) :
    (onSource work).run p =
      ⟨(work.run s).result, { p with source := some (work.run s).state }, (work.run s).trace⟩ := by
  simp only [onSource, Run.run, hs]

/-- It returns where there is a source and the work returns on it. -/
theorem onSource_returns {work : Run σ α} {p p' : Parser σ} {a : α} :
    (onSource work).Returns p a p' ↔
      ∃ s s', p.source = some s ∧ work.Returns s a s' ∧ p' = { p with source := some s' } := by
  constructor
  · rintro ⟨trace, h⟩
    cases hs : p.source with
    | none =>
      simp only [onSource, Run.run, hs] at h
      cases h
    | some s =>
      rw [onSource_run hs, Outcome.mk.injEq] at h
      obtain ⟨hresult, hstate, -⟩ := h
      exact ⟨s, (work.run s).state, rfl, ⟨(work.run s).trace, by rw [← hresult]⟩, hstate.symm⟩
  · rintro ⟨s, s', hs, ⟨trace, hwork⟩, rfl⟩
    exact ⟨trace, by rw [onSource_run hs, hwork]⟩

/-- Looking at the frames changes nothing. -/
theorem frames_returns {p p' : Parser σ} {fs : List (Frame σ)} :
    (frames : Run (Parser σ) (List (Frame σ))).Returns p fs p' ↔ p.stack.getD [] = fs ∧ p = p' := by
  unfold frames
  rw [Run.returns_bind]
  constructor
  · rintro ⟨q, p₁, hq, h⟩
    obtain ⟨rfl, rfl⟩ := Run.returns_get.mp hq
    obtain ⟨rfl, rfl⟩ := Run.returns_pure.mp h
    exact ⟨rfl, rfl⟩
  · rintro ⟨rfl, rfl⟩
    exact ⟨p, p, Run.returns_get.mpr ⟨rfl, rfl⟩, Run.returns_pure.mpr ⟨rfl, rfl⟩⟩

/-- Where there are frames a parse is under way. -/
theorem stack_eq_some {p : Parser σ} {top : Frame σ} {below : List (Frame σ)}
    (h : p.stack.getD [] = top :: below) : p.stack = some (top :: below) :=
  (Option.getD_eq_iff.mp h).resolve_right fun h => nomatch h.2

/-- The frames are replaced all at once. -/
theorem setFrames_returns {p p' : Parser σ} {fs : List (Frame σ)} {u : Unit} :
    (setFrames fs).Returns p u p' ↔ p' = { p with stack := some fs } := by
  unfold setFrames
  rw [Run.returns_modify, eq_comm]

/-- Only the innermost frame changes, which has to be there. -/
theorem changeTop_returns {f : Frame σ → Frame σ} {p p' : Parser σ} {u : Unit} :
    (changeTop f).Returns p u p' ↔
      ∃ top below,
        p.stack = some (top :: below) ∧ p' = { p with stack := some (f top :: below) } := by
  unfold changeTop
  rw [Run.returns_bind]
  constructor
  · rintro ⟨fs, p₁, hfs, h⟩
    obtain ⟨rfl, rfl⟩ := frames_returns.mp hfs
    split at h
    · next top below hstack =>
      exact ⟨top, below, stack_eq_some hstack, setFrames_returns.mp h⟩
    · exact absurd h Run.not_returns_fail
  · rintro ⟨top, below, hstack, rfl⟩
    refine ⟨top :: below, p, frames_returns.mpr ⟨by rw [hstack]; rfl, rfl⟩, ?_⟩
    exact setFrames_returns.mpr rfl

/-- The parse stands where its innermost frame does. -/
theorem topSite_returns {p p' : Parser σ} {site : Site}
    (h : (topSite : Run (Parser σ) Site).Returns p site p') :
    (∃ top below, p.stack = some (top :: below) ∧ site = top.site) ∧ p = p' := by
  unfold topSite at h
  obtain ⟨fs, p₁, hfs, h⟩ := Run.returns_bind.mp h
  obtain ⟨hget, rfl⟩ := frames_returns.mp hfs
  split at h
  · next top below =>
    obtain ⟨rfl, rfl⟩ := Run.returns_pure.mp h
    exact ⟨⟨_, _, stack_eq_some hget, rfl⟩, rfl⟩
  · exact absurd h Run.not_returns_fail

/-- Looking at the innermost keys changes nothing. -/
theorem topKeys_returns {p p' : Parser σ} {keys : List Key}
    (h : (topKeys : Run (Parser σ) (List Key)).Returns p keys p') : p = p' := by
  unfold topKeys at h
  obtain ⟨fs, p₁, hfs, h⟩ := Run.returns_bind.mp h
  obtain ⟨-, rfl⟩ := frames_returns.mp hfs
  exact (Run.returns_pure.mp h).2

/-- The token goes into the slot of its element in the innermost frame. -/
theorem deposit_returns {t : Transition} {token : Token} {p p' : Parser σ} {u : Unit}
    (h : (deposit t token).Returns p u p') :
    ∃ top rest, p.stack = some (top :: rest) ∧
      p' = { p with
        stack := some (top.insert t.target.index token.value token.position false :: rest) } := by
  unfold deposit at h
  obtain ⟨_, p₁, hchange, h⟩ := Run.returns_bind.mp h
  obtain ⟨top, rest, hstack, rfl⟩ := changeTop_returns.mp hchange
  obtain ⟨keys, p₂, hkeys, h⟩ := Run.returns_bind.mp h
  obtain rfl := topKeys_returns hkeys
  exact ⟨top, rest, hstack, (Run.returns_emit.mp h).symm⟩

-- ---------------------------------------------------------------------------
-- Entering the states of a route
-- ---------------------------------------------------------------------------

/-- `Pushes p site token keys frames frames'`: frames for the states of `keys` are pushed, the
outermost first, each with the action of its pattern. -/
inductive Pushes (p : Parser σ) (site : Site) (token : Token) :
    List Key → List (Frame σ) → List (Frame σ) → Prop
  | nil (frames : List (Frame σ)) : Pushes p site token [] frames frames
  | cons {k : Key} {keys : List Key} {next : Site} {pattern : Pattern (Action σ)}
      {frames frames' : List (Frame σ)} (hnext : site.follow? k = some next)
      (hpattern : p.patternOf? next.state.key = some pattern)
      (h : Pushes p site token keys
        ({ site := next, action := pattern.action, first := token.position } :: frames) frames') :
      Pushes p site token (k :: keys) frames frames'

/-- `Enters p site token moves route frames frames'`: the states of a route are entered. If the
innermost frame moves, it goes to the first of them; frames are pushed for the others. -/
inductive Enters (p : Parser σ) (site : Site) (token : Token) :
    Bool → List Key → List (Frame σ) → List (Frame σ) → Prop
  | moves {k : Key} {keys : List Key} {next : Site} {top : Frame σ} {below frames' : List (Frame σ)}
      (hnext : site.follow? k = some next)
      (h : Pushes p site token keys ({ top with site := next } :: below) frames') :
      Enters p site token true (k :: keys) (top :: below) frames'
  | fresh {route : List Key} {frames frames' : List (Frame σ)}
      (h : Pushes p site token route frames frames') :
      Enters p site token false route frames frames'

/-- Which frames are pushed depends on the patterns only. -/
theorem Pushes.of_patternOf? {p p' : Parser σ} {site : Site} {token : Token} {keys : List Key}
    {frames frames' : List (Frame σ)} (h : Pushes p' site token keys frames frames')
    (hp : ∀ k, p'.patternOf? k = p.patternOf? k) : Pushes p site token keys frames frames' := by
  induction h with
  | nil => exact .nil _
  | cons hnext hpattern _ ih => exact .cons hnext ((hp _).symm.trans hpattern) ih

/-- The innermost frame is at the end of the route. -/
theorem Pushes.site_eq {p : Parser σ} {site target : Site} {token : Token} {keys : List Key}
    {k : Key} {frames rest : List (Frame σ)} {top : Frame σ}
    (h : Pushes p site token (keys ++ [k]) frames (top :: rest))
    (hk : site.follow? k = some target) : top.site = target := by
  induction keys generalizing frames with
  | nil =>
    cases h with
    | cons hnext _ h =>
      cases h with
      | nil => exact Option.some.inj (hnext.symm.trans hk)
  | cons k' keys ih =>
    cases h with
    | cons _ _ h => exact ih h

/-- A frame is pushed for every key. -/
theorem Pushes.length_eq {p : Parser σ} {site : Site} {token : Token} {keys : List Key}
    {frames frames' : List (Frame σ)} (h : Pushes p site token keys frames frames') :
    frames'.length = frames.length + keys.length := by
  induction h with
  | nil => rfl
  | cons _ _ _ ih =>
    rw [ih, List.length_cons, List.length_cons]
    omega

/-- At most one frame is pushed for each state of a route. -/
theorem Enters.length_le {p : Parser σ} {site : Site} {token : Token} {moves : Bool}
    {route : List Key} {frames frames' : List (Frame σ)}
    (h : Enters p site token moves route frames frames') :
    frames'.length ≤ frames.length + route.length := by
  cases h with
  | fresh h => exact Nat.le_of_eq h.length_eq
  | moves _ h =>
    rw [h.length_eq, List.length_cons, List.length_cons, List.length_cons]
    omega

/-- The innermost frame is at the state of the last key in the end. -/
theorem Enters.site_eq {p : Parser σ} {site target : Site} {token : Token} {moves : Bool}
    {keys : List Key} {k : Key} {frames rest : List (Frame σ)} {top : Frame σ}
    (h : Enters p site token moves (keys ++ [k]) frames (top :: rest))
    (hk : site.follow? k = some target) : top.site = target := by
  generalize hroute : keys ++ [k] = route at h
  cases h with
  | fresh h =>
    subst hroute
    exact h.site_eq hk
  | moves hnext h =>
    cases keys with
    | nil =>
      obtain ⟨rfl, rfl⟩ := List.cons.inj hroute
      cases h with
      | nil => exact Option.some.inj (hnext.symm.trans hk)
    | cons k' keys =>
      obtain ⟨rfl, rfl⟩ := List.cons.inj hroute
      exact h.site_eq hk

/-- Another state is looked up in the table of the site. -/
theorem follow_returns {site next : Site} {k : Key} {p p' : Parser σ} :
    (follow site k).Returns p next p' ↔ site.follow? k = some next ∧ p = p' := by
  unfold follow
  exact Run.returns_orFail

/-- With the table up to date, a parse is prepared by looking up its start rule. -/
theorem prepare_returns {p p' : Parser σ} {rule : String} {r : Rule (Action σ)}
    (hstale : p.isStale = false) (h : (prepare rule).Returns p r p') :
    p.grammar.find? rule = some r ∧ p = p' := by
  unfold prepare at h
  obtain ⟨q, p₁, hget, h⟩ := Run.returns_bind.mp h
  obtain ⟨rfl, rfl⟩ := Run.returns_get.mp hget
  split at h
  · exact absurd h Run.not_returns_refuse
  · next r' hfind =>
    simp only [hstale, Bool.false_eq_true, if_false] at h
    obtain ⟨rfl, rfl⟩ := Run.returns_pure.mp h
    exact ⟨hfind, rfl⟩

-- ---------------------------------------------------------------------------
-- Reports and tokens
-- ---------------------------------------------------------------------------

section Machine

variable [TokenSource σ]

/-- An error added to a log is raised. -/
theorem not_returns_logged {id text : String} {place : Option Position} {line : Option String}
    {data : Payload} {calls : List MacroCall} {log log' : MessageLog} {a : α} :
    ¬ (MessageLog.error id text place line data calls).Returns log a log' := by
  intro h
  unfold MessageLog.error at h
  obtain ⟨_, _, -, h⟩ := Run.returns_bind.mp h
  exact Run.not_returns_fail h

/-- So an error does not return, wherever it is reported. -/
theorem not_returns_error {id text : String} {place : Option Position} {data : Payload}
    {p p' : Parser σ} {a : α} : ¬ (error id text place data).Returns p a p' := by
  intro h
  unfold error at h
  obtain ⟨q, s₁, -, h⟩ := Run.returns_bind.mp h
  split at h
  · obtain ⟨never, _⟩ := Run.returns_bind.mp h
    exact nomatch never
  · obtain ⟨t, h, -⟩ := Run.returns_zoom.mp h
    exact not_returns_logged h

/-- A warning leaves the parser as it is, but for source and log. -/
theorem warning_returns {id text : String} {place : Option Position} {data : Payload}
    {p p' : Parser σ} {u : Unit} (h : (warning id text place data).Returns p u p') :
    Kept p p' ∧ p'.stack = p.stack := by
  unfold warning at h
  obtain ⟨q, p₁, hq, h⟩ := Run.returns_bind.mp h
  obtain ⟨rfl, rfl⟩ := Run.returns_get.mp hq
  split at h
  · obtain ⟨s, s', hs, hreport, rfl⟩ := onSource_returns.mp h
    refine ⟨⟨rfl, rfl, rfl, rfl, fun t ht => ⟨s', rfl, ?_⟩⟩, rfl⟩
    rw [hs, Option.some.injEq] at ht
    subst ht
    exact .report (.refl _) hreport
  · next hnone =>
    obtain ⟨m, h⟩ := Run.returns_discard.mp h
    obtain ⟨log, -, rfl⟩ := Run.returns_zoom.mp h
    refine ⟨⟨rfl, rfl, rfl, rfl, fun t ht => ?_⟩, rfl⟩
    rw [ht] at hnone
    exact absurd rfl hnone

/-- The next token comes from the source, and its kind is accepted. -/
theorem nextToken_returns {rounds : Nat} {p p' : Parser σ} {token : Token}
    (h : (nextToken rounds).Returns p token p') :
    ∃ s s', p.source = some s ∧ (TokenSource.next rounds : Run σ Token).Returns s token s' ∧
      p' = { p with source := some s' } := by
  unfold nextToken at h
  obtain ⟨token', p₁, hnext, h⟩ := Run.returns_bind.mp h
  obtain ⟨q, p₂, hq, h⟩ := Run.returns_bind.mp h
  obtain ⟨rfl, rfl⟩ := Run.returns_get.mp hq
  split at h
  · exact absurd h not_returns_error
  · obtain ⟨rfl, rfl⟩ := Run.returns_pure.mp h
    exact onSource_returns.mp hnext

-- ---------------------------------------------------------------------------
-- Pushing frames
-- ---------------------------------------------------------------------------

/-- What is said where a pattern is entered: a deprecated pattern is warned about, and a removed
one is an error. -/
def announce (pattern : Pattern (Action σ)) (token : Token) : Run (Parser σ) Unit := do
  let keyword := match pattern.keyword with
    | none | some "" => token.value.shown
    | some word => word
  match pattern.support with
  | .deprecated =>
    warning "deprecated_keyword"
      ("The keyword '" ++ keyword ++ "' has been deprecated! See the reference manual for details.")
      token.position .null
  | .removed =>
    error "removed_keyword"
      ("The keyword '" ++ keyword ++
        "' is no longer supported! See the reference manual for details.") token.position .null
  | .experimental | .beta | .supported => pure ()

/-- Before a frame is pushed its pattern is announced. -/
theorem pushFrame_eq (site : Site) (token : Token) :
    (pushFrame site token : Run (Parser σ) Unit) = (do
    let p ← Run.get
    match p.patternOf? site.state.key with
    | none => Run.fail .precondition
    | some pattern =>
      announce pattern token
      setFrames ({ site := site, action := pattern.action, first := token.position } ::
          (← frames))) := by
  unfold pushFrame announce
  refine congrArg (Run.get >>= ·) (funext fun p => ?_)
  cases p.patternOf? site.state.key with
  | none => rfl
  | some pattern =>
    dsimp only
    cases pattern.support <;> rfl

/-- A pattern that was announced was not removed, and nothing else has come of it. -/
theorem announce_returns {pattern : Pattern (Action σ)} {token : Token} {p p' : Parser σ} {u : Unit}
    (h : (announce pattern token).Returns p u p') :
    pattern.support ≠ .removed ∧ Kept p p' ∧ p'.stack = p.stack := by
  unfold announce at h
  dsimp only at h
  split at h
  · next hsupport => exact ⟨by rw [hsupport]; nofun, warning_returns h⟩
  · exact absurd h not_returns_error
  all_goals
    next hsupport =>
      obtain ⟨-, rfl⟩ := Run.returns_pure.mp h
      exact ⟨by rw [hsupport]; nofun, .refl p, rfl⟩

/-- A pattern is entered by announcing it, and pushing a frame for it. -/
theorem pushFrame_announces {site : Site} {token : Token} {p p' : Parser σ} {u : Unit}
    (h : (pushFrame site token).Returns p u p') :
    ∃ pattern p₁, p.patternOf? site.state.key = some pattern ∧
      (announce pattern token).Returns p () p₁ ∧
      p' = { p₁ with
        stack := some ({ site := site, action := pattern.action, first := token.position } ::
          p₁.stack.getD []) } := by
  rw [pushFrame_eq] at h
  obtain ⟨q, p₀, hq, h⟩ := Run.returns_bind.mp h
  obtain ⟨rfl, rfl⟩ := Run.returns_get.mp hq
  split at h
  · exact absurd h Run.not_returns_fail
  · next pattern hpattern =>
    obtain ⟨_, p₁, hannounce, h⟩ := Run.returns_bind.mp h
    obtain ⟨fs, p₂, hfs, h⟩ := Run.returns_bind.mp h
    obtain ⟨rfl, rfl⟩ := frames_returns.mp hfs
    exact ⟨pattern, p₁, hpattern, hannounce, setFrames_returns.mp h⟩

/-- So a frame is pushed, and the rest stays. -/
theorem pushFrame_returns {site : Site} {token : Token} {p p' : Parser σ} {u : Unit}
    (h : (pushFrame site token).Returns p u p') :
    ∃ pattern, p.patternOf? site.state.key = some pattern ∧ Kept p p' ∧
      p'.stack = some ({ site := site, action := pattern.action, first := token.position } ::
        p.stack.getD []) := by
  obtain ⟨pattern, p₁, hpattern, hannounce, rfl⟩ := pushFrame_announces h
  obtain ⟨-, hkept, hstack⟩ := announce_returns hannounce
  rw [hstack]
  exact ⟨pattern, hpattern, hkept.trans (.setStack p₁ _), rfl⟩

/-- **Entering the patterns passed on the way** pushes a frame for each. -/
theorem enterSkipped_returns {site : Site} {token : Token} {keys : List Key} {p p' : Parser σ}
    {u : Unit} (h : (enterSkipped site token false keys).Returns p u p') :
    Kept p p' ∧ Pushes p site token keys (p.stack.getD []) (p'.stack.getD []) := by
  induction keys generalizing p with
  | nil =>
    obtain ⟨-, rfl⟩ := Run.returns_pure.mp h
    exact ⟨.refl p, .nil _⟩
  | cons k rest ih =>
    unfold enterSkipped at h
    obtain ⟨next, p₀, hfollow, h⟩ := Run.returns_bind.mp h
    obtain ⟨hnext, rfl⟩ := follow_returns.mp hfollow
    obtain ⟨_, p₁, hpush, h⟩ := Run.returns_bind.mp h
    obtain ⟨pattern, hpattern, hkept, hstack⟩ := pushFrame_returns hpush
    obtain ⟨hkept', hpushes⟩ := ih h
    rw [hstack] at hpushes
    exact ⟨hkept.trans hkept', .cons hnext hpattern (hpushes.of_patternOf? hkept.patternOf?)⟩

/-- The last of the states that are entered is entered as the others are. -/
theorem enterSkipped_snoc (site : Site) (token : Token) (keys : List Key) (k : Key) :
    (enterSkipped site token false (keys ++ [k]) : Run (Parser σ) Unit) =
      enterSkipped site token false keys >>= fun _ =>
        follow site k >>= fun next => pushFrame next token := by
  induction keys with
  | nil =>
    rw [List.nil_append, enterSkipped, enterSkipped, pure_bind]
    simp only [Bool.false_eq_true, if_false, enterSkipped, bind_pure_unit]
  | cons k' rest ih =>
    rw [List.cons_append, enterSkipped, enterSkipped, ih]
    simp only [Bool.false_eq_true, if_false, bind_assoc]

omit [TokenSource σ] in
/-- It does not matter when a state is looked up. -/
theorem follow_bind_comm (site : Site) (k : Key) (x : Site → Run (Parser σ) Unit) :
    (follow site k >>= fun target => x target >>= fun _ => pure target) =
      (follow site k >>= x) >>= fun _ => follow site k := by
  unfold follow
  cases site.follow? k with
  | none => rfl
  | some target =>
    show (pure target >>= fun target => x target >>= fun _ => pure target) =
      (pure target >>= x) >>= fun _ => pure target
    rw [pure_bind, pure_bind]

/-- The target of a transition is entered like the states of the references that it skips. -/
theorem shift_eq (site : Site) (t : Transition) (token : Token) :
    (shift site t token : Run (Parser σ) Site) = (do
      enterSkipped site token (site.state.key.pattern.isSome && !t.loopBack)
        (t.skipped ++ [t.target])
      deposit t token
      follow site t.target) := by
  unfold shift
  have hpush := follow_bind_comm site t.target fun target =>
    (pushFrame target token >>= fun _ => deposit t token : Run (Parser σ) Unit)
  simp only [bind_assoc] at hpush
  cases hmoves : site.state.key.pattern.isSome && !t.loopBack with
  | false =>
    -- a frame is pushed for the last state, as for the others
    have hnew : (t.loopBack || !t.skipped.isEmpty || !site.state.key.pattern.isSome) = true := by
      revert hmoves
      cases t.loopBack <;> cases site.state.key.pattern.isSome <;> simp
    simp only [hmoves, hnew, if_true, enterSkipped_snoc, bind_assoc, hpush]
  | true =>
    have hnew : (t.loopBack || !t.skipped.isEmpty || !site.state.key.pattern.isSome) =
        !t.skipped.isEmpty := by
      revert hmoves
      cases t.loopBack <;> cases site.state.key.pattern.isSome <;> simp
    simp only [hmoves, hnew]
    cases t.skipped with
    | nil =>
      have hmove := follow_bind_comm site t.target fun target =>
        (changeTop ({ · with site := target }) >>= fun _ => deposit t token : Run (Parser σ) Unit)
      simp only [bind_assoc] at hmove
      simp only [List.nil_append, enterSkipped, if_true, List.isEmpty_nil, Bool.not_true,
        Bool.false_eq_true, if_false, pure_bind, bind_assoc, hmove]
    | cons k keys =>
      simp only [List.cons_append, enterSkipped, if_true, List.isEmpty_cons, Bool.not_false,
        enterSkipped_snoc, bind_assoc, hpush]

/-- The states of a route are entered: the innermost frame goes to the first of them if it moves,
and frames are pushed for the others. -/
theorem enterSkipped_enters {site : Site} {token : Token} {moves : Bool} {keys : List Key}
    {p p' : Parser σ} {u : Unit}
    (hkeys : keys ≠ []) (h : (enterSkipped site token moves keys).Returns p u p') :
    Kept p p' ∧ Enters p site token moves keys (p.stack.getD []) (p'.stack.getD []) := by
  cases moves with
  | false =>
    obtain ⟨hkept, hpushes⟩ := enterSkipped_returns h
    exact ⟨hkept, .fresh hpushes⟩
  | true =>
    cases keys with
    | nil => exact absurd rfl hkeys
    | cons k keys =>
      unfold enterSkipped at h
      obtain ⟨next, p₀, hfirst, h⟩ := Run.returns_bind.mp h
      obtain ⟨hnext, rfl⟩ := follow_returns.mp hfirst
      obtain ⟨_, p₁, hchange, h⟩ := Run.returns_bind.mp h
      obtain ⟨top, below, hstack, rfl⟩ := changeTop_returns.mp hchange
      obtain ⟨hkept, hpushes⟩ := enterSkipped_returns h
      rw [hstack]
      exact ⟨(Kept.setStack p _).trans hkept, .moves hnext (hpushes.of_patternOf? fun _ => rfl)⟩

/--
**Shifting.** The states on the route of a transition are entered, the first of them by the frame of
the current pattern if the transition stays in it, and the token goes into the slot of the last one.
-/
theorem shift_returns {site target : Site} {t : Transition} {token : Token} {p p' : Parser σ}
    (h : (shift site t token).Returns p target p') :
    site.follow? t.target = some target ∧ Kept p p' ∧ ∃ top rest,
      Enters p site token (site.state.key.pattern.isSome && !t.loopBack) (t.skipped ++ [t.target])
        (p.stack.getD []) (top :: rest) ∧
      p'.stack = some (top.insert t.target.index token.value token.position false :: rest) := by
  rw [shift_eq] at h
  obtain ⟨_, p₁, hentered, h⟩ := Run.returns_bind.mp h
  obtain ⟨_, p₂, hdeposit, h⟩ := Run.returns_bind.mp h
  obtain ⟨htarget, rfl⟩ := follow_returns.mp h
  have hroute : t.skipped ++ [t.target] ≠ [] :=
    List.append_ne_nil_of_right_ne_nil _ (List.cons_ne_nil _ _)
  obtain ⟨hkept, henters⟩ := enterSkipped_enters hroute hentered
  obtain ⟨top, rest, hstack, rfl⟩ := deposit_returns hdeposit
  rw [hstack] at henters
  exact ⟨htarget, hkept.trans (.setStack p₁ _), top, rest, henters, rfl⟩

-- ---------------------------------------------------------------------------
-- Completing a frame
-- ---------------------------------------------------------------------------

/-- A token is given back to the source there is. -/
theorem giveBack_returns {token : Token} {p p' : Parser σ} {u : Unit}
    (h : (giveBack (some token)).Returns p u p') :
    ∃ s s', p.source = some s ∧ (TokenSource.pushBack token).Returns s () s' ∧
      p' = { p with source := some s' } :=
  onSource_returns.mp h

/-- That is no matter of the stack. -/
theorem giveBack_stack {token : Option Token} {p p' : Parser σ} {u : Unit}
    (h : (giveBack token).Returns p u p') : p'.stack = p.stack := by
  cases token with
  | none => rw [(Run.returns_pure.mp h).2]
  | some token =>
    obtain ⟨_, _, -, -, rfl⟩ := giveBack_returns h
    rfl

/-- The token behind a whole parse is the end of the input. -/
theorem expectEnd_returns {rounds : Nat} {p p' : Parser σ} {u : Unit}
    (h : (expectEnd rounds).Returns p u p') :
    ∃ next, next.isEnd = true ∧ (nextToken rounds).Returns p next p' := by
  unfold expectEnd at h
  obtain ⟨next, p₁, hnext, h⟩ := Run.returns_bind.mp h
  split at h
  · next hend =>
    obtain ⟨-, rfl⟩ := Run.returns_pure.mp h
    exact ⟨next, hend, hnext⟩
  · exact absurd h not_returns_error

/-- **Calling an action.** Without one there is no value; otherwise its script is carried out with
the values at hand. -/
theorem callAction_returns {frame : Frame σ} {values : List Value}
    {positions : List (Option Position)} {p p' : Parser σ} {result : Value}
    (h : (callAction frame values positions).Returns p result p') :
    (frame.action = none ∧ result = .nothing ∧ p' = p) ∨
    ∃ action p₁, frame.action = some action ∧
      (perform (action values)).Returns
        { p with values := some values, positions := some positions, reducing := some frame }
        result p₁ ∧
      p' = { p₁ with reducing := none } := by
  unfold callAction at h
  split at h
  · next hnone =>
    obtain ⟨rfl, rfl⟩ := Run.returns_pure.mp h
    exact .inl ⟨hnone, rfl, rfl⟩
  · next action haction =>
    obtain ⟨_, p₀, hset, h⟩ := Run.returns_bind.mp h
    obtain rfl := Run.returns_modify.mp hset
    obtain ⟨p₁, hperform, rfl⟩ := Run.returns_thenAlways.mp h
    exact .inr ⟨action, p₁, haction, hperform, rfl⟩

/-- A frame that is completed has a pattern; its action is called with the values of that, and the
frame below takes the result. -/
theorem reduce_returns {frame : Frame σ} {p p' : Parser σ} {u : Unit}
    (h : (reduce frame).Returns p u p') :
    frame.key.pattern.isSome ∧ ∃ values result p₁ parent rest,
      completed p.grammar frame.site.state.tokens
        (padded .nothing frame.site.state.tokens.length frame.values) = .ok values ∧
      (callAction frame values (padded none frame.site.state.tokens.length frame.positions)).Returns
        p result p₁ ∧
      p₁.stack = some (parent :: rest) ∧
      p' = { p₁ with
        stack := some (parent.insert parent.key.index result frame.first
          (p₁.repeats frame.key.rule frame.site.state.repeats) :: rest) } := by
  unfold reduce at h
  dsimp only at h
  split at h
  · exact absurd h Run.not_returns_fail
  · next hpattern =>
    obtain ⟨q, p₀, hq, h⟩ := Run.returns_bind.mp h
    obtain ⟨rfl, rfl⟩ := Run.returns_get.mp hq
    obtain ⟨values, p₀, hcomplete, h⟩ := Run.returns_bind.mp h
    obtain ⟨hvalues, rfl⟩ := Run.returns_ofExcept.mp hcomplete
    obtain ⟨result, p₁, hcall, h⟩ := Run.returns_bind.mp h
    obtain ⟨q, p₀, hq, h⟩ := Run.returns_bind.mp h
    obtain ⟨rfl, rfl⟩ := Run.returns_get.mp hq
    obtain ⟨_, p₂, hchange, h⟩ := Run.returns_bind.mp h
    obtain ⟨parent, rest, hstack, rfl⟩ := changeTop_returns.mp hchange
    obtain ⟨keys, p₃, hkeys, h⟩ := Run.returns_bind.mp h
    obtain rfl := topKeys_returns hkeys
    obtain rfl := Run.returns_emit.mp h
    refine ⟨?_, values, result, p₁, parent, rest, hvalues, hcall, hstack, rfl⟩
    rw [Bool.not_eq_true, Option.isNone_eq_false_iff] at hpattern
    exact hpattern

/--
**Completing.** Where only one frame is left the input has to end, and the frame stays. Any other
frame is taken off the stack and completed.
-/
theorem finish_returns {rounds : Nat} {token : Option Token} {p p' : Parser σ} {done : Bool}
    (h : (finish rounds token).Returns p done p') :
    ∃ p₁, (giveBack token).Returns p () p₁ ∧
      ((∃ root p₂, p.stack = some [root] ∧ done = true ∧
          (expectEnd rounds).Returns { p₁ with stack := some [] } () p₂ ∧
          p' = { p₂ with stack := some [root] }) ∨
        ∃ frame parent below, p.stack = some (frame :: parent :: below) ∧ done = false ∧
          (reduce frame).Returns { p₁ with stack := some (parent :: below) } () p') := by
  unfold finish at h
  obtain ⟨_, p₁, hback, h⟩ := Run.returns_bind.mp h
  refine ⟨p₁, hback, ?_⟩
  obtain ⟨fs, p₂, hfs, h⟩ := Run.returns_bind.mp h
  obtain ⟨hget, rfl⟩ := frames_returns.mp hfs
  rw [giveBack_stack hback] at hget
  split at h
  · exact absurd h Run.not_returns_fail
  · next root =>
    obtain ⟨_, p₃, hset, h⟩ := Run.returns_bind.mp h
    obtain rfl := setFrames_returns.mp hset
    obtain ⟨_, p₄, hend, h⟩ := Run.returns_bind.mp h
    obtain ⟨_, p₅, hset', h⟩ := Run.returns_bind.mp h
    obtain rfl := setFrames_returns.mp hset'
    obtain ⟨rfl, rfl⟩ := Run.returns_pure.mp h
    exact .inl ⟨root, p₄, stack_eq_some hget, rfl, hend, rfl⟩
  · next frame below hbelow =>
    obtain ⟨_, p₃, hset, h⟩ := Run.returns_bind.mp h
    obtain rfl := setFrames_returns.mp hset
    obtain ⟨_, p₄, hreduce, h⟩ := Run.returns_bind.mp h
    obtain ⟨rfl, rfl⟩ := Run.returns_pure.mp h
    cases below with
    | nil => exact absurd rfl hbelow
    | cons parent below => exact .inr ⟨frame, parent, below, stack_eq_some hget, rfl, hreduce⟩

-- ---------------------------------------------------------------------------
-- Rounds
-- ---------------------------------------------------------------------------

/-- Where no transition leads on, the pattern may end here. The parse is over once the frame of the
start rule is complete; else it goes on from the frame below. -/
theorem settle_returns {rounds : Nat} {site : Site} {token : Option Token} {p p' : Parser σ}
    {next : Site ⊕ Unit} (h : (settle rounds site token).Returns p next p') :
    site.state.reducible = true ∧
      (((finish rounds token).Returns p true p' ∧ next = .inr ()) ∨
        ∃ p₁, (finish rounds token).Returns p false p₁ ∧
          ((∃ root, p₁.stack = some [root] ∧ (finish rounds none).Returns p₁ true p' ∧
            next = .inr ()) ∨ ∃ top second below, p₁.stack = some (top :: second :: below) ∧
            next = .inl top.site ∧ p' = p₁)) := by
  unfold settle at h
  split at h
  · exfalso
    dsimp only at h
    split at h
    all_goals
      obtain ⟨_, _, -, h⟩ := Run.returns_bind.mp h
      exact not_returns_error h
  · next hreducible =>
    rw [Bool.not_eq_true, Bool.not_eq_false'] at hreducible
    refine ⟨hreducible, ?_⟩
    obtain ⟨done, p₁, hfinish, h⟩ := Run.returns_bind.mp h
    cases done with
    | true =>
      simp only [if_true] at h
      obtain ⟨rfl, rfl⟩ := Run.returns_pure.mp h
      exact .inl ⟨hfinish, rfl⟩
    | false =>
      refine .inr ⟨p₁, hfinish, ?_⟩
      simp only [Bool.false_eq_true, if_false] at h
      obtain ⟨fs, p₂, hfs, h⟩ := Run.returns_bind.mp h
      obtain ⟨hget, rfl⟩ := frames_returns.mp hfs
      split at h
      · next root =>
        have hstack := stack_eq_some hget
        obtain ⟨done, p₃, hfinish', h⟩ := Run.returns_bind.mp h
        obtain ⟨p₄, -, ⟨_, _, -, rfl, -, -⟩ | ⟨_, _, _, hstack', -, -⟩⟩ := finish_returns hfinish'
        · simp only [if_true] at h
          obtain ⟨rfl, rfl⟩ := Run.returns_pure.mp h
          exact .inl ⟨root, hstack, hfinish', rfl⟩
        · rw [hstack] at hstack'
          cases hstack'
      · next hmany =>
        obtain ⟨top, p₃, htop, h⟩ := Run.returns_bind.mp h
        obtain ⟨rfl, rfl⟩ := Run.returns_pure.mp h
        obtain ⟨⟨top, below, hstack, rfl⟩, rfl⟩ := topSite_returns htop
        rw [hstack, Option.getD_some] at hget
        cases below with
        | nil => exact absurd hget.symm (hmany top)
        | cons second below => exact .inr ⟨top, second, below, hstack, rfl, rfl⟩

/-- From a state the parse goes on along the transition for a token, or else the pattern
is completed. -/
theorem proceed_returns {rounds : Nat} {site : Site} {token : Token} {p p' : Parser σ}
    {next : Site ⊕ Unit} (h : (proceed rounds site token).Returns p next p') :
    (∃ t target, site.state.transition? p.keywordKinds token = some t ∧ next = .inl target ∧
        (shift site t token).Returns p target p') ∨
      (site.state.transition? p.keywordKinds token = none ∧
        (settle rounds site (some token)).Returns p next p') := by
  unfold proceed at h
  obtain ⟨q, p₀, hq, h⟩ := Run.returns_bind.mp h
  obtain ⟨rfl, rfl⟩ := Run.returns_get.mp hq
  split at h
  · next t ht =>
    obtain ⟨target, p₁, hshift, h⟩ := Run.returns_bind.mp h
    obtain ⟨rfl, rfl⟩ := Run.returns_pure.mp h
    exact .inl ⟨t, target, ht, rfl, hshift⟩
  · next hnone => exact .inr ⟨hnone, h⟩

/--
**One round.** Without a transition the pattern is completed; a transition that stays in the rule
shifts its token; and one that starts the rule over completes the pattern and looks again.
-/
theorem round_returns {rounds : Nat} {site : Site} {p p' : Parser σ} {next : Site ⊕ Unit}
    (h : (round rounds site).Returns p next p') :
    (site.state.transitions = [] ∧ (settle rounds site none).Returns p next p') ∨
    ∃ token p₁, (nextToken rounds).Returns p token p₁ ∧
      ((site.state.transition? p₁.keywordKinds token = none ∧
          (settle rounds site (some token)).Returns p₁ next p') ∨
        ∃ t, site.state.transition? p₁.keywordKinds token = some t ∧
          ((∃ target, t.loopBack = false ∧ next = .inl target ∧
              (shift site t token).Returns p₁ target p') ∨
            ∃ done token' p₂ p₃, t.loopBack = true ∧
              (finish rounds (some token)).Returns p₁ done p₂ ∧
              (nextToken rounds).Returns p₂ token' p₃ ∧
              (proceed rounds (p₂.renewed site) token').Returns p₃ next p')) := by
  unfold round at h
  split at h
  · next hempty => exact .inl ⟨List.isEmpty_iff.mp hempty, h⟩
  · obtain ⟨token, p₁, htoken, h⟩ := Run.returns_bind.mp h
    refine .inr ⟨token, p₁, htoken, ?_⟩
    obtain ⟨q, p₀, hq, h⟩ := Run.returns_bind.mp h
    obtain ⟨rfl, rfl⟩ := Run.returns_get.mp hq
    split at h
    · next t ht =>
      refine .inr ⟨t, ht, ?_⟩
      cases hloop : t.loopBack with
      | false =>
        simp only [hloop, Bool.false_eq_true, if_false] at h
        obtain ⟨target, p₂, hshift, h⟩ := Run.returns_bind.mp h
        obtain ⟨rfl, rfl⟩ := Run.returns_pure.mp h
        exact .inl ⟨target, rfl, rfl, hshift⟩
      | true =>
        simp only [hloop, if_true] at h
        obtain ⟨_, p₀, hemit, h⟩ := Run.returns_bind.mp h
        obtain rfl := Run.returns_emit.mp hemit
        obtain ⟨_, p₂, hfinish, h⟩ := Run.returns_bind.mp h
        obtain ⟨done, hfinish⟩ := Run.returns_discard.mp hfinish
        obtain ⟨q', p₀, hq', h⟩ := Run.returns_bind.mp h
        obtain ⟨rfl, rfl⟩ := Run.returns_get.mp hq'
        obtain ⟨token', p₃, htoken', h⟩ := Run.returns_bind.mp h
        exact .inr ⟨done, token', p₂, p₃, rfl, hfinish, htoken', h⟩
    · next hnone => exact .inl ⟨hnone, h⟩

-- ---------------------------------------------------------------------------
-- The whole parse
-- ---------------------------------------------------------------------------

/-- A parse starts at the entry of its rule, in the table that it was prepared with, and goes round
by round. -/
theorem parse_returns {p p' : Parser σ} {source : σ} {rule : String} {rounds : Nat} {v : Value}
    (h : (parse rounds rule source).Returns p v p') :
    ∃ r p₁ state root below, (prepare rule).Returns p r p₁ ∧
      p₁.table.find? ⟨r.id, none, 0⟩ = some state ∧
      (Run.iterate (round rounds) rounds ⟨p₁.table, state⟩).Returns
        { p₁ with
          source := some source, stack := some [{ site := ⟨p₁.table, state⟩, action := none }] }
        () p' ∧
      p'.stack = some (root :: below) ∧
      v = (((root :: below).getLast (List.cons_ne_nil _ _)).values.head?.getD
        (if p'.repeats r.id r.repeatable then .series [] else .nothing)) := by
  unfold parse at h
  obtain ⟨r, p₁, hprepare, h⟩ := Run.returns_bind.mp h
  obtain ⟨_, p₂, hset, h⟩ := Run.returns_bind.mp h
  obtain rfl := Run.returns_modify.mp hset
  obtain ⟨q, p₃, hget, h⟩ := Run.returns_bind.mp h
  obtain ⟨rfl, rfl⟩ := Run.returns_get.mp hget
  dsimp only at h
  split at h
  · exact absurd h Run.not_returns_refuse
  · next state hstate =>
    obtain ⟨_, p₄, hframes, h⟩ := Run.returns_bind.mp h
    obtain rfl := setFrames_returns.mp hframes
    obtain ⟨_, p₅, hiterate, h⟩ := Run.returns_bind.mp h
    obtain ⟨fs, p₆, hfs, h⟩ := Run.returns_bind.mp h
    obtain ⟨hstack, rfl⟩ := frames_returns.mp hfs
    split at h
    · exact absurd h Run.not_returns_fail
    · next last hlast =>
      obtain ⟨q, p₀, hget, h⟩ := Run.returns_bind.mp h
      obtain ⟨rfl, rfl⟩ := Run.returns_get.mp hget
      obtain ⟨rfl, rfl⟩ := Run.returns_pure.mp h
      cases fs with
      | nil => cases hlast
      | cons root below =>
        refine ⟨r, p₁, state, root, below, hprepare, hstate, hiterate, stack_eq_some hstack, ?_⟩
        rw [List.getLast?_eq_some_getLast (List.cons_ne_nil _ _), Option.some.injEq] at hlast
        rw [hlast]

end Machine

end Parser

end GrammarEngine
