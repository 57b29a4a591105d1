import GrammarEngine.Proofs.Outcomes
import GrammarEngine.Proofs.Parser.Progress

/-!
# Faults end a parse

A fault of the action that completes a frame is not caught: it ends the round, and with
it the parse.

Main results:

* `finish_fails` — the fault of an action is that of completing the frame.
* `round_fails_of_loopBack`, `round_fails_of_settle` — and that of the round.
* `parse_of_arrives` — a parse comes to the value or the fault that its rounds come to.
-/

namespace GrammarEngine

namespace TokenSource

variable {σ τ α : Type}

theorem either_fails_right {left : Run σ α} {right : Run τ α} {t : τ} {fault : Fault}
    (h : right.Fails t fault) : (either left right).Fails (.inr t) fault := h

end TokenSource

namespace Parser

variable {σ α : Type} {p p₁ p' : Parser σ} {fault : Fault}

/-- Work on the source fails with the fault that it comes to. -/
theorem onSource_fails {work : Run σ α} {s : σ}
    (hsource : p.source = some s) (h : work.Fails s fault) : (onSource work).Fails p fault := by
  show (onSource work p).result = _
  unfold onSource
  rw [hsource]
  exact h

section Machine

variable [TokenSource σ] {rounds : Nat} {site : Site} {token : Token} {frame parent : Frame σ}
  {below : List (Frame σ)} {values : List Value} {positions : List (Option Position)}

-- ---------------------------------------------------------------------------
-- Completing a frame
-- ---------------------------------------------------------------------------

/-- An action fails as its script does. -/
theorem callAction_fails {action : Action σ} (haction : frame.action = some action)
    (h : (perform (action values)).Fails
      { p with values := some values, positions := some positions, reducing := some frame } fault) :
    (callAction frame values positions).Fails p fault := by
  unfold callAction
  rw [haction]
  exact Run.leaves_modify_bind.mpr h

/-- A frame is not reduced if its action fails. -/
theorem reduce_fails (hpattern : frame.key.pattern.isSome = true)
    (hvalues : completed p.grammar frame.site.state.tokens
      (padded .nothing frame.site.state.tokens.length frame.values) = .ok values)
    (hcall : (callAction frame values
      (padded none frame.site.state.tokens.length frame.positions)).Fails p fault) :
    (reduce frame).Fails p fault := by
  have hinside : ¬ frame.site.state.key.pattern.isNone = true :=
    Bool.eq_false_iff.mp (Option.isNone_eq_false_iff.mpr hpattern)
  unfold reduce
  dsimp only
  rw [if_neg hinside]
  refine Run.leaves_get_bind.mpr ?_
  have hgiven : (Run.ofExcept (completed p.grammar frame.site.state.tokens
      (padded .nothing frame.site.state.tokens.length frame.values))).Returns p values p :=
    Run.returns_ofExcept.mpr ⟨hvalues, rfl⟩
  exact hgiven.bind_fails (hcall.bind _)

/-- Then finishing fails. -/
theorem finish_fails {token : Option Token} (hback : (giveBack token).Returns p () p₁)
    (hstack : p.stack = some (frame :: parent :: below))
    (hreduce : (reduce frame).Fails { p₁ with stack := some (parent :: below) } fault) :
    (finish rounds token).Fails p fault := by
  have hframes : p₁.stack.getD [] = frame :: parent :: below := by
    rw [giveBack_stack hback, hstack]
    rfl
  have hlook : (frames : Run (Parser σ) _).Returns p₁ (frame :: parent :: below) p₁ :=
    frames_returns.mpr ⟨hframes, rfl⟩
  have hpop : (setFrames (parent :: below)).Returns p₁ ()
      { p₁ with stack := some (parent :: below) } :=
    setFrames_returns.mpr rfl
  exact hback.bind_fails (hlook.bind_fails (hpop.bind_fails (hreduce.bind _)))

-- ---------------------------------------------------------------------------
-- Rounds
-- ---------------------------------------------------------------------------

/-- And so does settling. -/
theorem settle_fails {token : Option Token} (hreducible : site.state.reducible = true)
    (h : (finish rounds token).Fails p fault) : (settle rounds site token).Fails p fault := by
  unfold settle
  simp only [hreducible, Bool.not_true, Bool.false_eq_true, if_false]
  exact h.bind _

section Looks

variable (htransitions : site.state.transitions ≠ [])
  (hnext : (nextToken rounds).Returns p token p₁)

include htransitions hnext

/-- A round fails where settling does. -/
theorem round_fails_of_settle (hnone : site.state.transition? p₁.keywordKinds token = none)
    (h : (settle rounds site (some token)).Fails p₁ fault) : (round rounds site).Fails p fault := by
  unfold round
  rw [if_neg fun hempty => htransitions (List.isEmpty_iff.mp hempty)]
  refine hnext.bind_fails (Run.leaves_get_bind.mpr ?_)
  rw [hnone]
  exact h

/-- It also fails where the rule starts over, and what there was cannot be completed. -/
theorem round_fails_of_loopBack {t : Transition}
    (ht : site.state.transition? p₁.keywordKinds token = some t)
    (hloop : t.loopBack = true) (h : (finish rounds (some token)).Fails p₁ fault) :
    (round rounds site).Fails p fault := by
  unfold round
  rw [if_neg fun hempty => htransitions (List.isEmpty_iff.mp hempty)]
  refine hnext.bind_fails (Run.leaves_get_bind.mpr ?_)
  simp only [ht, hloop, if_true]
  exact Run.leaves_emit_bind.mpr (h.discard.bind _)

end Looks

-- ---------------------------------------------------------------------------
-- The whole parse
-- ---------------------------------------------------------------------------

/-- From a state on the parse breaks off with a fault, if it may take enough rounds. -/
def Breaks (site : Site) (p : Parser σ) (fault : Fault) : Prop :=
  ∃ n, ∀ rounds k, n ≤ rounds → n ≤ k → (Run.iterate (round rounds) k site).Fails p fault

/-- **A parse breaks** if it does from where a round leads. -/
theorem Breaks.of_round {next : Site}
    (hround : Run.Yields (fun rounds => round rounds site) p (.inl next) p')
    (h : Breaks next p' fault) : Breaks site p fault := by
  obtain ⟨m, hm⟩ := hround
  obtain ⟨n, hn⟩ := h
  refine ⟨max m n + 1, fun rounds k hrounds hk => ?_⟩
  obtain ⟨j, rfl⟩ : ∃ j, k = j + 1 := ⟨k - 1, by omega⟩
  rw [Run.iterate_succ]
  exact (hm rounds (by omega)).bind_fails (hn rounds j (by omega) (by omega))

/-- It breaks with the last round. -/
theorem Breaks.of_last {n : Nat}
    (hround : ∀ rounds, n ≤ rounds → (round rounds site).Fails p fault) : Breaks site p fault := by
  refine ⟨n + 1, fun rounds k hrounds hk => ?_⟩
  obtain ⟨j, rfl⟩ : ∃ j, k = j + 1 := ⟨k - 1, by omega⟩
  rw [Run.iterate_succ]
  exact (hround rounds (by omega)).bind _

/-- From a state on the parse comes to a value or a fault. -/
def Arrives (site : Site) (p : Parser σ) : Except Fault Value → Prop
  | .ok value => Concludes site p value
  | .error fault => Breaks site p fault

/-- It arrives where it does from the next round on. -/
theorem Arrives.of_round {next : Site} {result : Except Fault Value}
    (hround : Run.Yields (fun rounds => round rounds site) p (.inl next) p')
    (h : Arrives next p' result) : Arrives site p result := by
  cases result with
  | ok value => exact Concludes.of_round hround h
  | error fault => exact Breaks.of_round hround h

section Parse

variable {rule : String} {r : Rule (Action σ)} {state : State} {source : σ}
  (hprepare : (prepare rule).Returns p r p₁) (hstate : p₁.table.find? ⟨r.id, none, 0⟩ = some state)

include hprepare hstate

/-- What ends the rounds ends the parse. -/
theorem parse_fails_of_iterate
    (h : (Run.iterate (round rounds) rounds ⟨p₁.table, state⟩).Fails
      { p₁ with
        source := some source, stack := some [{ site := ⟨p₁.table, state⟩, action := none }] }
      fault) :
    (parse rounds rule source).Fails p fault := by
  refine hprepare.bind_fails (Run.leaves_modify_bind.mpr (Run.leaves_get_bind.mpr ?_))
  simp only [hstate]
  exact Run.leaves_modify_bind.mpr (h.bind _)

/-- A parse comes to what it arrives at from the entry of its rule. -/
theorem parse_of_arrives {result : Except Fault Value} (h : Arrives ⟨p₁.table, state⟩ { p₁ with
      source := some source, stack :=
        some [{ site := ⟨p₁.table, state⟩, action := none }] } result) :
    ∃ n, ∀ rounds, n ≤ rounds → ((parse rounds rule source).run p).result = result := by
  cases result with
  | ok value =>
    obtain ⟨n, hn⟩ := parse_of_concludes hprepare hstate h
    refine ⟨n, fun rounds hrounds => ?_⟩
    obtain ⟨p', trace, hparse⟩ := hn rounds hrounds
    rw [hparse]
  | error fault =>
    obtain ⟨n, hn⟩ := h
    exact ⟨n, fun rounds hrounds =>
      parse_fails_of_iterate hprepare hstate (hn rounds rounds hrounds hrounds)⟩

end Parse

end Machine

end Parser

end GrammarEngine
