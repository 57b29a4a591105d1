import GrammarEngine.Proofs.Parser.Discipline

/-!
# Actions that look around

An action may ask where its pattern began and where the elements stand, and do nothing else but make
a value or give up. Performing it changes nothing at all, so all that it asks is answered from the
parser as it was when the action was called (`told`).

When that is can be said of any actions. A round comes to complete the innermost frame in one
of four ways (`Finishing`); the frame is taken off the stack, what it has collected is filled
up, and with that the action is called (`Calls`). The rest of the round is to perform it and
to go on with its value.

Main results:

* `perform_of_looks` — performing an action that only looks.
* `completes_iff` — the frames that a round completes are the innermost ones where it comes
  to complete one.
* `Calls.goesOn` — where an action is called the round goes on by performing it.
-/

namespace GrammarEngine

variable {σ : Type}

namespace Run

variable {α β : Type} {x y : Run σ α} {s t u : σ}

/-- `x.GoesOn s y t`: a run of `x` from `s` comes to `t`, and what is left to be done
there is `y`. -/
def GoesOn (x : Run σ α) (s : σ) (y : Run σ α) (t : σ) : Prop :=
  ∃ before, x.run s = ⟨(y.run t).result, (y.run t).state, (y.run t).trace ++ before⟩

theorem GoesOn.refl (x : Run σ α) (s : σ) : x.GoesOn s x s := ⟨[], by rw [List.append_nil]⟩

theorem GoesOn.trans {z : Run σ α} (h : x.GoesOn s y t) (h' : y.GoesOn t z u) : x.GoesOn s z u := by
  obtain ⟨before, h⟩ := h
  obtain ⟨before', h'⟩ := h'
  refine ⟨before' ++ before, ?_⟩
  rw [h, h', List.append_assoc]

/-- A chain goes on behind a run that has returned. -/
theorem Returns.goesOn {f : α → Run σ β} {a : α} (h : x.Returns s a t) :
    (x >>= f).GoesOn s (f a) t := by
  obtain ⟨before, h⟩ := h
  refine ⟨before, ?_⟩
  rw [run_bind, h]

theorem goesOn_get {f : σ → Run σ β} : (get >>= f).GoesOn s (f s) s :=
  Returns.goesOn (returns_get.mpr ⟨rfl, rfl⟩)

/-- A chain goes on as its first run does. -/
theorem GoesOn.bind (h : x.GoesOn s y t) (f : α → Run σ β) : (x >>= f).GoesOn s (y >>= f) t := by
  obtain ⟨before, h⟩ := h
  refine ⟨before, ?_⟩
  rw [run_bind, run_bind, h]
  rcases y.run t with ⟨fault | a, t', trace⟩
  · rfl
  · simp only [List.append_assoc]

end Run

-- ---------------------------------------------------------------------------
-- Looking
-- ---------------------------------------------------------------------------

namespace Script

/-- A script that only asks where its pattern and the elements are, whatever it is told. -/
inductive Looks : Script σ → Prop
  | here {rest : Option Position → Script σ} (h : ∀ place, Looks (rest place)) : Looks (.here rest)
  | slots {rest : List Value → List (Option Position) → Script σ}
      (h : ∀ values places, Looks (rest values places)) : Looks (.slots rest)
  | fail (fault : Fault) : Looks (.fail fault)
  | done (v : Value) : Looks (.done v)

/-- What a script that only looks comes to, if its pattern is at `place` and has these
values and places. -/
def told (place : Option Position) (values : List Value) (places : List (Option Position)) :
    Script σ → Option (Except Fault Value)
  | .here rest => told place values places (rest place)
  | .slots rest => told place values places (rest values places)
  | .fail fault => some (.error fault)
  | .done v => some (.ok v)
  | .source .. | .error .. | .warning .. | .limit .. | .amend .. | .dropRule .. | .declareRule
      .. | .rebuild .. =>
    none

end Script

/-- No action of a grammar does more than look around, and make a value or give up. -/
def Grammar.Looks (g : Grammar (Action σ)) : Prop :=
  ∀ r ∈ g.rules,
    ∀ p ∈ r.patterns, ∀ action, p.action = some action → ∀ values, (action values).Looks

theorem Grammar.Pure.looks {g : Grammar (Action σ)} (h : g.Pure) : g.Looks := by
  intro r hr p hp action haction values
  obtain ⟨v, hdone⟩ | ⟨fault, hfail⟩ := h r hr p hp action haction values
  · rw [hdone]
    exact .done v
  · rw [hfail]
    exact .fail fault

namespace Parser

open Run

variable [TokenSource σ] {p p' p₁ p₂ : Parser σ} {rounds : Nat} {site : Site}

/-- **Performing a script that only looks** changes nothing. What it comes to is what it is told
by the parser. -/
theorem perform_of_looks {script : Script σ} (h : script.Looks) (p : Parser σ) :
    ∃ result, script.told p.position (p.values.getD []) (p.positions.getD []) = some result ∧
      (perform script).run p = ⟨result, p, []⟩ := by
  induction h with
  | here _ ih =>
    obtain ⟨result, htold, hperform⟩ := ih p.position
    refine ⟨result, htold, ?_⟩
    rw [perform, run_bind, run_get]
    simp only [hperform, List.append_nil]
  | slots _ ih =>
    obtain ⟨result, htold, hperform⟩ := ih (p.values.getD []) (p.positions.getD [])
    refine ⟨result, htold, ?_⟩
    rw [perform, run_bind, run_get]
    simp only [hperform, List.append_nil]
  | fail fault => exact ⟨.error fault, rfl, rfl⟩
  | done v => exact ⟨.ok v, rfl, rfl⟩

/-- An action that only looks leaves all that matters. -/
theorem callAction_looks {frame : Frame σ} {values : List Value}
    {positions : List (Option Position)} {v : Value}
    (hlooks : ∀ action, frame.action = some action → (action values).Looks)
    (h : (callAction frame values positions).Returns p v p') :
    p'.stack = p.stack ∧ p'.source = p.source ∧ Kept p p' := by
  obtain ⟨-, -, rfl⟩ | ⟨action, p₁, haction, ⟨trace, hperform⟩, rfl⟩ := callAction_returns h
  · exact ⟨rfl, rfl, .refl p'⟩
  · obtain ⟨result, -, hlook⟩ := perform_of_looks (hlooks action haction)
      { p with values := some values, positions := some positions, reducing := some frame }
    rw [hlook, Outcome.mk.injEq] at hperform
    obtain ⟨-, rfl, -⟩ := hperform
    exact ⟨rfl, rfl, rfl, rfl, rfl, rfl, fun s hs => ⟨s, hs, .refl s⟩⟩

-- ---------------------------------------------------------------------------
-- Where actions are called
-- ---------------------------------------------------------------------------

/-- `Finishing rounds p site token p'`: a round comes to complete the innermost frame, and a token
that was read is to be given back. The frame of the start rule may be completed right behind another
one; but it has no action. -/
inductive Finishing (rounds : Nat) (p : Parser σ) (site : Site) : Option Token → Parser σ → Prop
  /-- No transition leads on from the state. -/
  | exhausted (hempty : site.state.transitions = []) (hreducible : site.state.reducible = true) :
      Finishing rounds p site none p
  /-- None leads on with this token. -/
  | stuck {p₁ : Parser σ} {token : Token} (hne : site.state.transitions ≠ [])
      (hnext : (nextToken rounds).Returns p token p₁)
      (hnone : site.state.transition? p₁.keywordKinds token = none)
      (hreducible : site.state.reducible = true) : Finishing rounds p site (some token) p₁
  /-- The rule starts over. -/
  | early {p₁ : Parser σ} {token : Token} {t : Transition}
      (hnext : (nextToken rounds).Returns p token p₁)
      (ht : site.state.transition? p₁.keywordKinds token = some t) (hloop : t.loopBack = true) :
      Finishing rounds p site (some token) p₁
  /-- The rule was to start over, but at the second look no transition leads on. -/
  | late {again : Site} {p₁ : Parser σ} {token : Token}
      (hlook : LooksAgain rounds p site again token p₁)
      (hnone : again.state.transition? p₁.keywordKinds token = none)
      (hreducible : again.state.reducible = true) : Finishing rounds p site (some token) p₁

/-- The frames that a round completes are those that are innermost where it comes to
complete one. -/
theorem completes_iff {f : Frame σ} :
    Completes rounds p site f ↔
      ∃ token p₁, Finishing rounds p site token p₁ ∧ p₁.Finishes token f := by
  constructor
  · rintro (⟨hempty, hreducible, h⟩ | ⟨hne, hnext, hnone, hreducible, h⟩ | ⟨hnext, ht, hloop, h⟩ |
      ⟨hlook, hnone, hreducible, h⟩)
    · exact ⟨_, _, .exhausted hempty hreducible, h⟩
    · exact ⟨_, _, .stuck hne hnext hnone hreducible, h⟩
    · exact ⟨_, _, .early hnext ht hloop, h⟩
    · exact ⟨_, _, .late hlook hnone hreducible, h⟩
  · rintro ⟨token, p₁, hfinishing, h⟩
    cases hfinishing with
    | exhausted hempty hreducible => exact .exhausted hempty hreducible h
    | stuck hne hnext hnone hreducible => exact .stuck hne hnext hnone hreducible h
    | early hnext ht hloop => exact .early hnext ht hloop h
    | late hlook hnone hreducible => exact .late hlook hnone hreducible h

/-- `Calls rounds p site action values p'`: in a round an action is called with the values of its
pattern. The parser `p'` is about to perform it. -/
inductive Calls (rounds : Nat) (p : Parser σ) (site : Site) :
    Action σ → List Value → Parser σ → Prop
  | intro {token : Option Token} {p₁ p₂ : Parser σ} {f parent : Frame σ} {below : List (Frame σ)}
      {action : Action σ} {values : List Value} (hfinishing : Finishing rounds p site token p₁)
      (hback : (giveBack token).Returns p₁ () p₂) (hstack : p₂.stack = some (f :: parent :: below))
      (hinside : f.site.state.key.pattern.isSome) (haction : f.action = some action)
      (hvalues : completed p₂.grammar f.site.state.tokens
        (padded .nothing f.site.state.tokens.length f.values) = .ok values) :
      Calls rounds p site action values { p₂ with
          stack := some (parent :: below)
          values := some values
          positions := some (padded none f.site.state.tokens.length f.positions)
          reducing := some f }

/-- A frame that is completed has had its action called, and with it where it began and where its
elements are. -/
theorem calls_of_finish {token : Option Token} {done : Bool} {f parent : Frame σ}
    {below : List (Frame σ)} {action : Action σ} (hfinishing : Finishing rounds p site token p₁)
    (hstack : p₁.stack = some (f :: parent :: below)) (haction : f.action = some action)
    (h : (finish rounds token).Returns p₁ done p₂) :
    ∃ values p', Calls rounds p site action values p' ∧ p'.position = f.first ∧
      p'.positions = some (padded none f.site.state.tokens.length f.positions) := by
  obtain ⟨p₀, hback, ⟨_, _, hroot, -⟩ | ⟨frame, parent', below', hframe, -, hreduce⟩⟩ :=
    finish_returns h
  · rw [hstack] at hroot
    cases hroot
  · rw [hstack] at hframe
    cases hframe
    obtain ⟨hinside, values, _, _, _, _, hvalues, -⟩ := reduce_returns hreduce
    exact ⟨values, _, .intro hfinishing hback ((giveBack_stack hback).trans hstack) hinside haction
      hvalues, rfl, rfl⟩

/-- What is done at a second look, from a state on. -/
def lookAgain (rounds : Nat) (site : Site) : Run (Parser σ) (Site ⊕ Unit) := do
  let again := (← Run.get).renewed site
  proceed rounds again (← nextToken rounds)

/-- Where a pattern may end it is completed. -/
theorem settle_goesOn (rounds : Nat) (p : Parser σ) (token : Option Token)
    (hreducible : site.state.reducible = true) :
    ∃ rest, (settle rounds site token).GoesOn p (finish rounds token >>= rest) p := by
  unfold settle
  simp only [hreducible, Bool.not_true, Bool.false_eq_true, if_false]
  exact ⟨_, .refl _ p⟩

theorem proceed_goesOn {token : Token}
    (hnone : site.state.transition? p.keywordKinds token = none) :
    (proceed rounds site token).GoesOn p (settle rounds site (some token)) p := by
  unfold proceed
  refine goesOn_get.trans ?_
  rw [hnone]
  exact .refl _ p

/-- A round from a state without transitions asks for no token. -/
theorem round_of_nil (hempty : site.state.transitions = []) :
    (round rounds site : Run (Parser σ) (Site ⊕ Unit)) = settle rounds site none := by
  unfold round
  rw [hempty]
  rfl

/-- A round without a transition for its token goes on by completing a pattern. -/
theorem round_goesOn_of_none {token : Token} (hne : site.state.transitions ≠ [])
    (hnext : (nextToken rounds).Returns p token p₁)
    (hnone : site.state.transition? p₁.keywordKinds token = none) :
    (round rounds site).GoesOn p (settle rounds site (some token)) p₁ := by
  unfold round
  rw [if_neg (by rwa [List.isEmpty_iff])]
  refine hnext.goesOn.trans ?_
  refine goesOn_get.trans ?_
  rw [hnone]
  exact .refl _ p₁

/-- A round that starts the rule over goes on by completing the pattern, and looks again. -/
theorem round_goesOn_of_loopBack {token : Token} {t : Transition}
    (hnext : (nextToken rounds).Returns p token p₁)
    (ht : site.state.transition? p₁.keywordKinds token = some t) (hloop : t.loopBack = true) :
    (round rounds site).GoesOn p
      (finish rounds (some token) >>= fun _ => lookAgain rounds site) p₁ := by
  unfold round
  have hmem := (State.matches_of_transition? ht).1
  rw [if_neg (by rw [List.isEmpty_iff]; exact List.ne_nil_of_mem hmem)]
  refine hnext.goesOn.trans ?_
  refine goesOn_get.trans ?_
  rw [ht]
  simp only [hloop, if_true]
  have hemit : (Run.emit (.loopedBack site.state.key token.value)).Returns p₁ () p₁ :=
    returns_emit.mpr rfl
  refine .trans hemit.goesOn ?_
  have hdiscard : (discard (finish rounds (some token)) : Run (Parser σ) Unit) =
      finish rounds (some token) >>= fun _ => pure () := by
    rw [bind_pure_comp]
    rfl
  rw [hdiscard, bind_assoc]
  simp only [pure_bind]
  exact .refl _ p₁

/-- The round goes on by completing the innermost frame. -/
theorem Finishing.goesOn {token : Option Token} (h : Finishing rounds p site token p₁) :
    ∃ rest, (round rounds site).GoesOn p (finish rounds token >>= rest) p₁ := by
  cases h with
  | exhausted hempty hreducible =>
    obtain ⟨rest, hsettle⟩ := settle_goesOn rounds p none hreducible
    rw [round_of_nil hempty]
    exact ⟨rest, hsettle⟩
  | stuck hne hnext hnone hreducible =>
    obtain ⟨rest, hsettle⟩ := settle_goesOn rounds p₁ _ hreducible
    exact ⟨rest, (round_goesOn_of_none hne hnext hnone).trans hsettle⟩
  | early hnext ht hloop => exact ⟨_, round_goesOn_of_loopBack hnext ht hloop⟩
  | late hlook hnone hreducible =>
    obtain @⟨_, _, _, _, _, p₂, _, hfirst, ht, hloop, hfinish, hnext⟩ := hlook
    obtain ⟨rest, hsettle⟩ := settle_goesOn rounds p₁ (some _) hreducible
    refine ⟨rest, (round_goesOn_of_loopBack hfirst ht hloop).trans (hfinish.goesOn.trans ?_)⟩
    unfold lookAgain
    exact goesOn_get.trans (hnext.goesOn.trans ((proceed_goesOn hnone).trans hsettle))

/-- A frame is completed by calling its action. -/
theorem reduce_goesOn {f : Frame σ} {action : Action σ} {values : List Value}
    (hinside : f.site.state.key.pattern.isSome) (haction : f.action = some action)
    (hvalues : completed p.grammar f.site.state.tokens
      (padded .nothing f.site.state.tokens.length f.values) = .ok values) :
    ∃ rest, (reduce f).GoesOn p
      (Run.thenAlways (perform (action values)) (fun p => { p with reducing := none }) >>= rest)
      { p with
        values := some values
        positions := some (padded none f.site.state.tokens.length f.positions)
        reducing := some f } := by
  unfold reduce
  dsimp only
  rw [if_neg (by rw [Bool.not_eq_true, Option.isNone_eq_false_iff]; exact hinside)]
  have hcompleted : (Run.ofExcept (completed p.grammar f.site.state.tokens
      (padded .nothing f.site.state.tokens.length f.values))).Returns p values p :=
        returns_ofExcept.mpr ⟨hvalues, rfl⟩
  refine ⟨_, goesOn_get.trans (hcompleted.goesOn.trans (.bind ?_ _))⟩
  unfold callAction
  rw [haction]
  have hset : (Run.modify fun p : Parser σ => { p with
      values := some values
      positions := some (padded none f.site.state.tokens.length f.positions)
      reducing := some f }).Returns p () _ := returns_modify.mpr rfl
  exact hset.goesOn

/-- **Where an action is called** the round goes on by performing it, and does the rest
with its value. -/
theorem Calls.goesOn {action : Action σ} {values : List Value}
    (h : Calls rounds p site action values p') :
    ∃ rest, (round rounds site).GoesOn p
      (Run.thenAlways (perform (action values)) (fun p => { p with reducing := none }) >>= rest)
        p' := by
  obtain @⟨token, p₁, p₂, f, parent, below, _, _, hfinishing, hback, hstack, hinside, haction,
      hvalues⟩ := h
  obtain ⟨rest, hround⟩ := hfinishing.goesOn
  obtain ⟨rest', hreduce⟩ :=
    reduce_goesOn (p := { p₂ with stack := some (parent :: below) }) hinside haction hvalues
  -- the frame is taken off the stack
  have hframes : (frames : Run (Parser σ) (List (Frame σ))).Returns p₂ (f :: parent :: below) p₂ :=
    frames_returns.mpr ⟨by rw [hstack]; rfl, rfl⟩
  have hset : (setFrames (parent :: below)).Returns p₂ ()
      { p₂ with stack := some (parent :: below) } :=
    setFrames_returns.mpr rfl
  have hfinish : (finish rounds token).GoesOn p₁ (reduce f >>= fun _ => pure false)
      { p₂ with stack := some (parent :: below) } := by
    unfold finish
    exact hback.goesOn.trans (hframes.goesOn.trans hset.goesOn)
  have hcall :=
    (hround.trans (hfinish.bind rest)).trans ((hreduce.bind fun _ => pure false).bind rest)
  rw [bind_assoc, bind_assoc] at hcall
  exact ⟨_, hcall⟩

end Parser

end GrammarEngine
