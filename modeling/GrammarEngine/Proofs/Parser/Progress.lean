import GrammarEngine.Proofs.Parser.Derivation
import GrammarEngine.Proofs.Parser.Steps

/-!
# What the machine does where nothing fails

For each operation of the machine, when it returns and what it leaves: a token is shifted
where the states on its route are known, a frame is completed where its action returns, and a
round is made of these.

The converse, what is known of an operation that has returned, is said of each of them elsewhere.

Main results:

* `shift_of_enters` — a token is shifted along the route of a transition.
* `finish_of_frame` — a frame is completed.
* `round_of_shift`, `round_of_loopBack`, `round_of_settle` — the rounds.
* `Concludes.of_round` — a parse that goes on from where a round leads concludes as that does.
-/

namespace GrammarEngine

namespace TokenSource

variable {σ τ α : Type}

/-- What the second of two parts does, their choice does. -/
theorem either_returns_right {left : Run σ α} {right : Run τ α} {t t' : τ} {a : α}
    (h : right.Returns t a t') : (either left right).Returns (.inr t) a (.inr t') := by
  obtain ⟨trace, hrun⟩ := h
  refine ⟨trace, ?_⟩
  show onRight right t = _
  have hright : right t = ⟨.ok a, t', trace⟩ := hrun
  unfold onRight
  rw [hright]

end TokenSource

namespace Parser

variable {σ : Type} {p : Parser σ}

-- ---------------------------------------------------------------------------
-- The stack
-- ---------------------------------------------------------------------------

/-- The innermost keys are at hand. -/
theorem topKeys_of_stack : (topKeys : Run (Parser σ) (List Key)).Returns p
    (((p.stack.getD []).take 4).map Frame.key).reverse p :=
  Run.returns_bind.mpr ⟨_, p, frames_returns.mpr ⟨rfl, rfl⟩, Run.returns_pure.mpr ⟨rfl, rfl⟩⟩

/-- A token is deposited in the innermost frame. -/
theorem deposit_of_stack {top : Frame σ} {rest : List (Frame σ)}
    (hstack : p.stack = some (top :: rest)) (t : Transition) (token : Token) :
    (deposit t token).Returns p ()
      { p with
        stack := some (top.insert t.target.index token.value token.position false :: rest) } := by
  refine Run.returns_bind.mpr ⟨(), _, changeTop_returns.mpr ⟨top, rest, hstack, rfl⟩, ?_⟩
  exact Run.returns_bind.mpr ⟨_, _, topKeys_of_stack, Run.returns_emit.mpr rfl⟩

section Machine

variable [TokenSource σ] {rounds : Nat} {s s' : σ} {token : Token} {site target : Site}
  {p₁ p₂ p' : Parser σ}

/-- The next token is that of the source, if all kinds are accepted. -/
theorem nextToken_of_source (hs : p.source = some s)
    (hnext : (TokenSource.next rounds : Run σ Token).Returns s token s')
    (hblocked : p.blocked = []) :
    (nextToken rounds).Returns p token { p with source := some s' } := by
  refine Run.returns_bind.mpr ⟨token, _, onSource_returns.mpr ⟨s, s', hs, hnext, rfl⟩, ?_⟩
  refine Run.returns_bind.mpr ⟨_, _, Run.returns_get.mpr ⟨rfl, rfl⟩, ?_⟩
  have haccepted : ¬ p.blocked.contains token.kind = true := by simp [hblocked]
  rw [if_neg haccepted]
  exact Run.returns_pure.mpr ⟨rfl, rfl⟩

/-- A token is given back if the source takes it. -/
theorem giveBack_of_source (hs : p.source = some s)
    (hback : (TokenSource.pushBack token).Returns s () s') :
    (giveBack (some token)).Returns p () { p with source := some s' } :=
  onSource_returns.mpr ⟨s, s', hs, hback, rfl⟩

-- ---------------------------------------------------------------------------
-- Shifting
-- ---------------------------------------------------------------------------

/-- Where a key leads is a state of that key. -/
theorem state_of_follow? {k : Key} (h : site.follow? k = some target) : target.state.key = k := by
  unfold Site.follow? at h
  obtain ⟨state, hfind, rfl⟩ := Option.map_eq_some_iff.mp h
  exact Table.key_of_find?_eq_some hfind

/-- The pattern of a state is neither deprecated nor removed. -/
def Admits (p : Parser σ) (k : Key) : Prop :=
  ∀ pattern, p.patternOf? k = some pattern →
    pattern.support ≠ .deprecated ∧ pattern.support ≠ .removed

/-- A frame is pushed without a warning for a pattern that is neither deprecated nor removed. -/
theorem pushFrame_of_admits {pattern : Pattern (Action σ)} {frames : List (Frame σ)}
    (hadmits : p.Admits site.state.key) (hpattern : p.patternOf? site.state.key = some pattern)
    (hstack : p.stack.getD [] = frames) : (pushFrame site token).Returns p ()
      { p with stack := some ({ site := site, action := pattern.action, first := token.position } ::
        frames) } := by
  refine Run.returns_bind.mpr ⟨p, p, Run.returns_get.mpr ⟨rfl, rfl⟩, ?_⟩
  obtain ⟨hdeprecated, hremoved⟩ := hadmits _ hpattern
  cases hsupport : pattern.support with
  | deprecated => exact absurd hsupport hdeprecated
  | removed => exact absurd hsupport hremoved
  | experimental | beta | supported =>
    simp only [hpattern, hsupport]
    exact Run.returns_bind.mpr ⟨frames, p, frames_returns.mpr ⟨hstack, rfl⟩,
      setFrames_returns.mpr rfl⟩

/-- Frames are pushed for the references passed, if all their patterns are of that kind. -/
theorem enterSkipped_of_pushes {keys : List Key} {frames frames' : List (Frame σ)}
    (hadmits : ∀ k ∈ keys, p.Admits k) (h : Pushes p site token keys frames frames')
    (hstack : p.stack = some frames) :
    (enterSkipped site token false keys).Returns p () { p with stack := some frames' } := by
  induction keys generalizing p frames with
  | nil =>
    cases h
    refine Run.returns_pure.mpr ⟨rfl, ?_⟩
    rw [← hstack]
  | cons k keys ih =>
    cases h with
    | @cons _ _ next pattern _ _ hnext hpattern hrest =>
      refine Run.returns_bind.mpr ⟨next, p, follow_returns.mpr ⟨hnext, rfl⟩, ?_⟩
      have hframes : p.stack.getD [] = frames := by
        rw [hstack]
        rfl
      have hfirst : p.Admits next.state.key := by
        rw [state_of_follow? hnext]
        exact hadmits k (List.mem_cons_self ..)
      refine Run.returns_bind.mpr ⟨(), _, pushFrame_of_admits hfirst hpattern hframes, ?_⟩
      have hothers : ∀ k ∈ keys, p.Admits k := fun k hk => hadmits k (List.mem_cons_of_mem _ hk)
      exact ih (p := { p with stack := _ }) hothers (hrest.of_patternOf? fun _ => rfl) rfl

omit [TokenSource σ] in
/-- The last of several frames is pushed by itself. -/
theorem Pushes.unsnoc {keys : List Key} {k : Key} {frames frames' : List (Frame σ)}
    (h : Pushes p site token (keys ++ [k]) frames frames') : ∃ next pattern middle,
      Pushes p site token keys frames middle ∧ site.follow? k = some next ∧
      p.patternOf? next.state.key = some pattern ∧
      frames' = { site := next, action := pattern.action, first := token.position } :: middle := by
  induction keys generalizing frames with
  | nil =>
    cases h with
    | cons hnext hpattern hrest =>
      cases hrest
      exact ⟨_, _, _, .nil _, hnext, hpattern, rfl⟩
  | cons k' keys ih =>
    cases h with
    | cons hnext hpattern hrest =>
      obtain ⟨next, pattern, middle, hmiddle, hlast, hpattern', rfl⟩ := ih hrest
      exact ⟨next, pattern, middle, .cons hnext hpattern hmiddle, hlast, hpattern', rfl⟩

omit [TokenSource σ] in
/-- The innermost frame is where the route ends. -/
theorem Enters.follow?_last {moves : Bool} {keys : List Key} {k : Key}
    {frames rest : List (Frame σ)} {top : Frame σ}
    (h : Enters p site token moves (keys ++ [k]) frames (top :: rest)) :
    site.follow? k = some top.site := by
  generalize hroute : keys ++ [k] = route at h
  have hpushed : ∀ {keys frames}, Pushes p site token (keys ++ [k]) frames (top :: rest) →
      site.follow? k = some top.site := by
    intro keys frames h
    obtain ⟨next, pattern, middle, -, hnext, -, heq⟩ := h.unsnoc
    rw [(List.cons.inj heq).1]
    exact hnext
  cases h with
  | fresh h => exact hpushed (hroute ▸ h)
  | moves hnext h =>
    cases keys with
    | nil =>
      obtain ⟨rfl, rfl⟩ := List.cons.inj hroute
      cases h
      exact hnext
    | cons k' keys =>
      obtain ⟨rfl, rfl⟩ := List.cons.inj hroute
      exact hpushed h

/-- A route is entered frame by frame. -/
theorem enterSkipped_of_enters {moves : Bool} {keys : List Key} {frames frames' : List (Frame σ)}
    (hadmits : ∀ k ∈ keys, p.Admits k) (h : Enters p site token moves keys frames frames')
    (hstack : p.stack = some frames) :
    (enterSkipped site token moves keys).Returns p () { p with stack := some frames' } := by
  cases h with
  | fresh h => exact enterSkipped_of_pushes hadmits h hstack
  | @moves k keys next top below _ hnext h =>
    refine Run.returns_bind.mpr ⟨next, p, follow_returns.mpr ⟨hnext, rfl⟩, ?_⟩
    refine Run.returns_bind.mpr ⟨(), _, changeTop_returns.mpr ⟨top, below, hstack, rfl⟩, ?_⟩
    exact enterSkipped_of_pushes
      (p := { p with stack := some ({ top with site := next } :: below) })
      (fun k hk => hadmits k (List.mem_cons_of_mem _ hk)) (h.of_patternOf? fun _ => rfl) rfl

/-- **Shifting.** The token is shifted if the states on the route of its transition can be entered,
and goes into the slot of the last one. -/
theorem shift_of_enters {t : Transition} {frames rest : List (Frame σ)} {top : Frame σ}
    (hadmits : ∀ k ∈ t.skipped ++ [t.target], p.Admits k) (hstack : p.stack = some frames)
    (hfollow : site.follow? t.target = some target)
    (h : Enters p site token (site.state.key.pattern.isSome && !t.loopBack)
      (t.skipped ++ [t.target]) frames (top :: rest)) :
    (shift site t token).Returns p target
      { p with
        stack := some (top.insert t.target.index token.value token.position false :: rest) } := by
  rw [shift_eq]
  refine Run.returns_bind.mpr ⟨(), _, enterSkipped_of_enters hadmits h hstack, ?_⟩
  exact Run.returns_bind.mpr ⟨(), _, deposit_of_stack rfl t token,
    follow_returns.mpr ⟨hfollow, rfl⟩⟩

-- ---------------------------------------------------------------------------
-- Completing a frame
-- ---------------------------------------------------------------------------

/-- **An action is called** with the values at hand, if its script returns. -/
theorem callAction_of_action {frame : Frame σ} {values : List Value}
    {positions : List (Option Position)} {action : Action σ} {result : Value}
    (haction : frame.action = some action)
    (h : (perform (action values)).Returns
      { p with values := some values, positions := some positions, reducing := some frame } result
      p₁) :
    (callAction frame values positions).Returns p result { p₁ with reducing := none } := by
  unfold callAction
  rw [haction]
  refine Run.returns_bind.mpr ⟨(), _, Run.returns_modify.mpr rfl, ?_⟩
  exact Run.returns_thenAlways.mpr ⟨p₁, h, rfl⟩

/-- **A frame is reduced** if its action returns and there is a frame below. -/
theorem reduce_of_action {frame parent : Frame σ} {rest : List (Frame σ)} {values : List Value}
    {result : Value} (hpattern : frame.key.pattern.isSome = true)
    (hvalues : completed p.grammar frame.site.state.tokens
      (padded .nothing frame.site.state.tokens.length frame.values) = .ok values)
    (hcall : (callAction frame values
      (padded none frame.site.state.tokens.length frame.positions)).Returns p result p₁)
    (hstack : p₁.stack = some (parent :: rest)) :
    (reduce frame).Returns p () { p₁ with
      stack := some (parent.insert parent.key.index result frame.first
        (p₁.repeats frame.key.rule frame.site.state.repeats) :: rest) } := by
  have hinside : ¬ frame.site.state.key.pattern.isNone = true :=
    Bool.eq_false_iff.mp (Option.isNone_eq_false_iff.mpr hpattern)
  unfold reduce
  dsimp only
  rw [if_neg hinside]
  refine Run.returns_bind.mpr ⟨p, p, Run.returns_get.mpr ⟨rfl, rfl⟩, ?_⟩
  refine Run.returns_bind.mpr ⟨values, p, Run.returns_ofExcept.mpr ⟨hvalues, rfl⟩, ?_⟩
  refine Run.returns_bind.mpr ⟨result, p₁, hcall, ?_⟩
  refine Run.returns_bind.mpr ⟨p₁, p₁, Run.returns_get.mpr ⟨rfl, rfl⟩, ?_⟩
  refine Run.returns_bind.mpr ⟨(), _, changeTop_returns.mpr ⟨parent, rest, hstack, rfl⟩, ?_⟩
  exact Run.returns_bind.mpr ⟨_, _, topKeys_of_stack, Run.returns_emit.mpr rfl⟩

/-- An action that only computes has no other effect on the parser than what it is called with. -/
theorem callAction_of_evaluates {frame : Frame σ} {values : List Value} {v : Value}
    (h : Grammar.Evaluates frame.action values v) (positions : List (Option Position))
    (p : Parser σ) :
    ∃ values' positions' reducing, (callAction frame values positions).Returns p v
      { p with values := values', positions := positions', reducing := reducing } := by
  unfold Grammar.Evaluates at h
  cases haction : frame.action with
  | none =>
    rw [haction] at h
    subst h
    refine ⟨p.values, p.positions, p.reducing, ?_⟩
    unfold callAction
    rw [haction]
    exact Run.returns_pure.mpr ⟨rfl, rfl⟩
  | some action =>
    rw [haction] at h
    have hperform : (perform (action values)).Returns
        { p with values := some values, positions := some positions, reducing := some frame } v
        { p with values := some values, positions := some positions, reducing := some frame } := by
      rw [h]
      exact Run.returns_pure.mpr ⟨rfl, rfl⟩
    exact ⟨some values, some positions, none, callAction_of_action haction hperform⟩

/-- **Completing** a frame above that of the start rule. -/
theorem finish_of_frame {token : Option Token} {frame parent : Frame σ} {below : List (Frame σ)}
    (hback : (giveBack token).Returns p () p₁) (hstack : p.stack = some (frame :: parent :: below))
    (hreduce : (reduce frame).Returns { p₁ with stack := some (parent :: below) } () p') :
    (finish rounds token).Returns p false p' := by
  have hframes : p₁.stack.getD [] = frame :: parent :: below := by
    rw [giveBack_stack hback, hstack]
    rfl
  refine Run.returns_bind.mpr ⟨(), p₁, hback, ?_⟩
  refine Run.returns_bind.mpr ⟨_, p₁, frames_returns.mpr ⟨hframes, rfl⟩, ?_⟩
  refine Run.returns_bind.mpr ⟨(), _, setFrames_returns.mpr rfl, ?_⟩
  exact Run.returns_bind.mpr ⟨(), p', hreduce, Run.returns_pure.mpr ⟨rfl, rfl⟩⟩

/-- A token that was read ahead is given back before anything is completed. -/
theorem finish_of_giveBack {token : Option Token} {done : Bool}
    (hback : (giveBack token).Returns p () p₁)
    (h : (finish rounds none).Returns p₁ done p') : (finish rounds token).Returns p done p' := by
  obtain ⟨_, p₂, hnone, hrest⟩ := Run.returns_bind.mp h
  obtain ⟨-, rfl⟩ := Run.returns_pure.mp hnone
  exact Run.returns_bind.mpr ⟨(), p₁, hback, hrest⟩

/-- The frame of the start rule is complete where the input ends. -/
theorem finish_of_root {root : Frame σ} (hstack : p.stack = some [root]) (hend : token.isEnd = true)
    (hnext : (nextToken rounds).Returns { p with stack := some [] } token p₁) :
    (finish rounds none).Returns p true { p₁ with stack := some [root] } := by
  have hframes : p.stack.getD [] = [root] := by
    rw [hstack]
    rfl
  refine Run.returns_bind.mpr ⟨(), p, Run.returns_pure.mpr ⟨rfl, rfl⟩, ?_⟩
  refine Run.returns_bind.mpr ⟨_, p, frames_returns.mpr ⟨hframes, rfl⟩, ?_⟩
  refine Run.returns_bind.mpr ⟨(), _, setFrames_returns.mpr rfl, ?_⟩
  refine Run.returns_bind.mpr ⟨(), p₁, ?_, ?_⟩
  · refine Run.returns_bind.mpr ⟨token, p₁, hnext, ?_⟩
    rw [if_pos hend]
    exact Run.returns_pure.mpr ⟨rfl, rfl⟩
  · exact Run.returns_bind.mpr ⟨(), _, setFrames_returns.mpr rfl, Run.returns_pure.mpr ⟨rfl, rfl⟩⟩

-- ---------------------------------------------------------------------------
-- Rounds
-- ---------------------------------------------------------------------------

/-- Settling goes on from the innermost frame that is left. -/
theorem settle_of_finish {token : Option Token} {top second : Frame σ} {below : List (Frame σ)}
    (hreducible : site.state.reducible = true) (hfinish : (finish rounds token).Returns p false p')
    (hstack : p'.stack = some (top :: second :: below)) :
    (settle rounds site token).Returns p (.inl top.site) p' := by
  have hframes : p'.stack.getD [] = top :: second :: below := by
    rw [hstack]
    rfl
  unfold settle
  simp only [hreducible, Bool.not_true, Bool.false_eq_true, if_false]
  refine Run.returns_bind.mpr ⟨false, p', hfinish, ?_⟩
  refine Run.returns_bind.mpr ⟨_, p', frames_returns.mpr ⟨hframes, rfl⟩, ?_⟩
  refine Run.returns_bind.mpr ⟨top.site, p', ?_, Run.returns_pure.mpr ⟨rfl, rfl⟩⟩
  exact Run.returns_bind.mpr ⟨_, p', frames_returns.mpr ⟨hframes, rfl⟩,
    Run.returns_pure.mpr ⟨rfl, rfl⟩⟩

/-- Settling ends the parse where the start rule is the only one left, and the input ends. -/
theorem settle_of_root {token : Option Token} {root : Frame σ}
    (hreducible : site.state.reducible = true) (hfinish : (finish rounds token).Returns p false p₁)
    (hstack : p₁.stack = some [root]) (hroot : (finish rounds none).Returns p₁ true p') :
    (settle rounds site token).Returns p (.inr ()) p' := by
  have hframes : p₁.stack.getD [] = [root] := by
    rw [hstack]
    rfl
  unfold settle
  simp only [hreducible, Bool.not_true, Bool.false_eq_true, if_false]
  refine Run.returns_bind.mpr ⟨false, p₁, hfinish, ?_⟩
  refine Run.returns_bind.mpr ⟨_, p₁, frames_returns.mpr ⟨hframes, rfl⟩, ?_⟩
  exact Run.returns_bind.mpr ⟨true, p', hroot, Run.returns_pure.mpr ⟨rfl, rfl⟩⟩

/-- The parse is done where the frame of the start rule itself is completed. -/
theorem settle_of_done {token : Option Token} (hreducible : site.state.reducible = true)
    (hfinish : (finish rounds token).Returns p true p') :
    (settle rounds site token).Returns p (.inr ()) p' := by
  unfold settle
  simp only [hreducible, Bool.not_true, Bool.false_eq_true, if_false]
  exact Run.returns_bind.mpr ⟨true, p', hfinish, Run.returns_pure.mpr ⟨rfl, rfl⟩⟩

/-- Without a transition a round completes the pattern. -/
theorem round_of_empty {next : Site ⊕ Unit} (hempty : site.state.transitions = [])
    (h : (settle rounds site none).Returns p next p') : (round rounds site).Returns p next p' := by
  unfold round
  rw [if_pos (List.isEmpty_iff.mpr hempty)]
  exact h

section Looks

variable (htransitions : site.state.transitions ≠ [])
  (hnext : (nextToken rounds).Returns p token p₁)

include htransitions hnext

/-- A round settles where there is no transition. -/
theorem round_of_settle {next : Site ⊕ Unit}
    (hnone : site.state.transition? p₁.keywordKinds token = none)
    (h : (settle rounds site (some token)).Returns p₁ next p') :
    (round rounds site).Returns p next p' := by
  unfold round
  rw [if_neg fun hempty => htransitions (List.isEmpty_iff.mp hempty)]
  refine Run.returns_bind.mpr ⟨token, p₁, hnext, ?_⟩
  refine Run.returns_bind.mpr ⟨p₁, p₁, Run.returns_get.mpr ⟨rfl, rfl⟩, ?_⟩
  rw [hnone]
  exact h

/-- A round shifts along a transition that does not start the rule over. -/
theorem round_of_shift {t : Transition} (ht : site.state.transition? p₁.keywordKinds token = some t)
    (hloop : t.loopBack = false) (h : (shift site t token).Returns p₁ target p') :
    (round rounds site).Returns p (.inl target) p' := by
  unfold round
  rw [if_neg fun hempty => htransitions (List.isEmpty_iff.mp hempty)]
  refine Run.returns_bind.mpr ⟨token, p₁, hnext, ?_⟩
  refine Run.returns_bind.mpr ⟨p₁, p₁, Run.returns_get.mpr ⟨rfl, rfl⟩, ?_⟩
  simp only [ht, hloop, Bool.false_eq_true, if_false]
  exact Run.returns_bind.mpr ⟨target, p', h, Run.returns_pure.mpr ⟨rfl, rfl⟩⟩

/-- A token on which the rule starts over completes the pattern; what comes next is
shifted from there. -/
theorem round_of_loopBack {t t' : Transition} {again : Site} {token' : Token} {done : Bool}
    {p₃ : Parser σ} (ht : site.state.transition? p₁.keywordKinds token = some t)
    (hloop : t.loopBack = true) (hfinish : (finish rounds (some token)).Returns p₁ done p₂)
    (hagain : p₂.renewed site = again) (hnext' : (nextToken rounds).Returns p₂ token' p₃)
    (ht' : again.state.transition? p₃.keywordKinds token' = some t')
    (h : (shift again t' token').Returns p₃ target p') :
    (round rounds site).Returns p (.inl target) p' := by
  unfold round
  rw [if_neg fun hempty => htransitions (List.isEmpty_iff.mp hempty)]
  refine Run.returns_bind.mpr ⟨token, p₁, hnext, ?_⟩
  refine Run.returns_bind.mpr ⟨p₁, p₁, Run.returns_get.mpr ⟨rfl, rfl⟩, ?_⟩
  simp only [ht, hloop, if_true]
  refine Run.returns_bind.mpr ⟨(), p₁, Run.returns_emit.mpr rfl, ?_⟩
  refine Run.returns_bind.mpr ⟨(), p₂, Run.returns_discard.mpr ⟨done, hfinish⟩, ?_⟩
  refine Run.returns_bind.mpr ⟨p₂, p₂, Run.returns_get.mpr ⟨rfl, rfl⟩, ?_⟩
  refine Run.returns_bind.mpr ⟨token', p₃, hnext', ?_⟩
  refine Run.returns_bind.mpr ⟨p₃, p₃, Run.returns_get.mpr ⟨rfl, rfl⟩, ?_⟩
  rw [hagain, ht']
  exact Run.returns_bind.mpr ⟨target, p', h, Run.returns_pure.mpr ⟨rfl, rfl⟩⟩

end Looks

-- ---------------------------------------------------------------------------
-- The whole parse
-- ---------------------------------------------------------------------------

/-- From a state on the parse comes to its end, with a value of the start rule, if it may take
enough rounds. -/
def Concludes (site : Site) (p : Parser σ) (value : Value) : Prop :=
  ∃ n, ∀ rounds k, n ≤ rounds → n ≤ k →
    ∃ p' root, (Run.iterate (round rounds) k site).Returns p () p' ∧
    p'.stack = some [root] ∧ root.values.head? = some value

/-- **A parse concludes** if it does from where a round leads. -/
theorem Concludes.of_round {next : Site} {value : Value}
    (hround : Run.Yields (fun rounds => round rounds site) p (.inl next) p')
    (h : Concludes next p' value) : Concludes site p value := by
  obtain ⟨m, hm⟩ := hround
  obtain ⟨n, hn⟩ := h
  refine ⟨max m n + 1, fun rounds k hrounds hk => ?_⟩
  obtain ⟨j, rfl⟩ : ∃ j, k = j + 1 := ⟨k - 1, by omega⟩
  obtain ⟨p'', root, hiterate, hvalue⟩ := hn rounds j (by omega) (by omega)
  refine ⟨p'', root, ?_, hvalue⟩
  rw [Run.iterate_succ]
  exact Run.returns_bind.mpr ⟨.inl next, p', hm rounds (by omega), hiterate⟩

/-- It concludes with the last round. -/
theorem Concludes.of_last {root : Frame σ} {value : Value}
    (hround : Run.Yields (fun rounds => round rounds site) p (.inr ()) p')
    (hstack : p'.stack = some [root])
    (hvalue : root.values.head? = some value) : Concludes site p value := by
  obtain ⟨m, hm⟩ := hround
  refine ⟨m + 1, fun rounds k hrounds hk => ?_⟩
  obtain ⟨j, rfl⟩ : ∃ j, k = j + 1 := ⟨k - 1, by omega⟩
  refine ⟨p', root, ?_, hstack, hvalue⟩
  rw [Run.iterate_succ]
  exact Run.returns_bind.mpr ⟨.inr (), p', hm rounds (by omega), Run.returns_pure.mpr ⟨rfl, rfl⟩⟩

/-- A parse returns what the rounds from the entry of its rule leave in the frame of the
start rule. -/
theorem parse_of_iterate {rule : String} {r : Rule (Action σ)} {state : State} {source : σ}
    {root : Frame σ} (hprepare : (prepare rule).Returns p r p₁)
    (hstate : p₁.table.find? ⟨r.id, none, 0⟩ = some state)
    (hiterate : (Run.iterate (round rounds) rounds ⟨p₁.table, state⟩).Returns { p₁ with
      source := some source, stack := some [{ site := ⟨p₁.table, state⟩, action := none }] } () p')
    (hstack : p'.stack = some [root]) : (parse rounds rule source).Returns p
      (root.values.head?.getD (if p'.repeats r.id r.repeatable then .series [] else .nothing))
        p' := by
  have hframes : p'.stack.getD [] = [root] := by
    rw [hstack]
    rfl
  refine Run.returns_bind.mpr ⟨r, p₁, hprepare, ?_⟩
  refine Run.returns_bind.mpr ⟨(), _, Run.returns_modify.mpr rfl, ?_⟩
  refine Run.returns_bind.mpr ⟨_, _, Run.returns_get.mpr ⟨rfl, rfl⟩, ?_⟩
  simp only [hstate]
  refine Run.returns_bind.mpr ⟨(), _, setFrames_returns.mpr rfl, ?_⟩
  refine Run.returns_bind.mpr ⟨(), p', hiterate, ?_⟩
  refine Run.returns_bind.mpr ⟨_, p', frames_returns.mpr ⟨hframes, rfl⟩, ?_⟩
  simp only [List.getLast?_singleton]
  refine Run.returns_bind.mpr ⟨p', p', Run.returns_get.mpr ⟨rfl, rfl⟩, ?_⟩
  exact Run.returns_pure.mpr ⟨rfl, rfl⟩

/-- A parse returns what it concludes with from the entry of its rule. -/
theorem parse_of_concludes {rule : String} {r : Rule (Action σ)} {state : State} {source : σ}
    {value : Value} (hprepare : (prepare rule).Returns p r p₁)
    (hstate : p₁.table.find? ⟨r.id, none, 0⟩ = some state)
    (h : Concludes ⟨p₁.table, state⟩ { p₁ with
      source := some source, stack :=
        some [{ site := ⟨p₁.table, state⟩, action := none }] } value) :
    ∃ n, ∀ rounds, n ≤ rounds → ∃ p', (parse rounds rule source).Returns p value p' := by
  obtain ⟨n, hn⟩ := h
  refine ⟨n, fun rounds hrounds => ?_⟩
  obtain ⟨p', root, hiterate, hstack, hvalue⟩ := hn rounds rounds hrounds hrounds
  have hparse := parse_of_iterate hprepare hstate hiterate hstack
  rw [hvalue] at hparse
  exact ⟨p', hparse⟩

end Machine

end Parser

end GrammarEngine
