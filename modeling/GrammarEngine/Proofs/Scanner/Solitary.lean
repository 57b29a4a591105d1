import GrammarEngine.Proofs.Scanner.Changes

/-!
# Work that sees the current input only

Most of what a scanner does has to do with no input but the current one: it sees no other, and
changes no other (`Solitary`). Only opening, closing, including a file and going back to the input
that included it do. So the end of an input is taken apart here into the parts that see the current
input only, and the going back (`goBack`).

Main results:

* `Confined.solitary` — work at the cursor is of that kind, and so is what is made of modes and
  tokens pushed back.
* `endOfInput_run_of_away`, `endOfInput_run_of_parent`, `endOfInput_run_of_last` — the end of an
  input, part by part.
-/

namespace GrammarEngine

open Run

namespace Scanner

variable {α β : Type} {s t : Scanner}

/-- Work that sees no input but the current one, and that changes no other. -/
structure Solitary (x : Run Scanner α) : Prop where
  alone : ∀ s, x.run s.focused = ⟨(x.run s).result, (x.run s).state.focused, (x.run s).trace⟩
  inputs : ∀ s, ReadOn s.inputs (x.run s).state.inputs

/-- Confined work sees the current input only. -/
theorem Confined.solitary {x : Run Scanner α} (h : Confined x) : Solitary x where
  alone := h.alone
  inputs s := (h.busied s).inputs

/-- One piece of such work may follow another. -/
theorem solitary_bind {x : Run Scanner α} {f : α → Run Scanner β}
    (hx : Solitary x) (hf : ∀ a, Solitary (f a)) : Solitary (x >>= f) where
  alone s := by
    rw [run_bind, hx.alone, run_bind]
    rcases x.run s with ⟨fault | a, t, trace⟩
    · rfl
    · dsimp only
      rw [(hf a).alone]
  inputs s := by
    have hfirst := hx.inputs s
    rw [run_bind]
    rcases hrun : x.run s with ⟨fault | a, t, trace⟩
    all_goals rw [hrun] at hfirst
    · exact hfirst
    · exact hfirst.trans ((hf a).inputs t)

/-- What is done with the state may depend on all but the inputs below the current one. -/
theorem solitary_get {f : Scanner → Run Scanner α}
    (hsame : ∀ s, f s.focused = f s) (hf : ∀ s, Solitary (f s)) : Solitary (get >>= f) where
  alone s := by
    rw [run_bind, run_get, run_bind, run_get]
    dsimp only
    rw [hsame, (hf s).alone]
  inputs s := by
    rw [run_bind, run_get]
    exact (hf s).inputs s

/-- A change beside the inputs. -/
theorem solitary_modify {f : Scanner → Scanner} (hsame : ∀ s, f s.focused = (f s).focused)
    (hinputs : ∀ s, (f s).inputs = s.inputs) : Solitary (modify f) where
  alone s := by
    rw [run_modify, run_modify, hsame]
  inputs s := by
    rw [run_modify, hinputs]
    exact .refl _

/-- Giving up sees no input. -/
theorem solitary_fail (fault : Fault) : Solitary (fail fault : Run Scanner α) :=
  (Confined.giveUp fault).solitary

/-- Returning a value sees none. -/
theorem solitary_pure (a : α) : Solitary (pure a) := (Confined.done a).solitary

/-- Switching modes has nothing to do with the inputs. -/
theorem solitary_setMode (mode : Mode) : Solitary (setMode mode) where
  alone s := by
    have hlexicon : s.focused.lexicon = s.lexicon := rfl
    unfold setMode
    rw [run_bind, run_get, run_bind, run_get]
    dsimp only
    rw [hlexicon]
    cases s.lexicon.patterns? mode with
    | none => rfl
    | some patterns => rfl
  inputs s := by
    have h : (setMode mode).Leaves s fun _ t => t.inputs = s.inputs := by
      rw [leaves_setMode]
      split <;> rfl
    exact (show (setMode mode).Leaves s fun _ t =>
      ReadOn s.inputs t.inputs from h.mono fun _ _ ht => ht ▸ .refl _)

/-- Pushing a mode has nothing to do with them, either. -/
theorem solitary_pushMode (mode : Mode) : Solitary (pushMode mode) :=
  solitary_get (fun _ => rfl) fun _ =>
    solitary_bind (solitary_setMode mode) fun _ => solitary_modify (fun _ => rfl) fun _ => rfl

/-- Nor has popping one. -/
theorem solitary_popMode : Solitary popMode := by
  refine solitary_get (fun _ => rfl) fun s => ?_
  split
  · exact solitary_fail _
  · exact solitary_bind (solitary_modify (fun _ => rfl) fun _ => rfl) fun _ => solitary_setMode _

/-- A token is pushed back to the scanner, and to no input. -/
theorem solitary_pushBack (token : Token) : Solitary (pushBack token) where
  alone s := by
    have hpending : s.focused.pending = s.pending := rfl
    unfold pushBack
    rw [run_bind, run_get, run_bind, run_get]
    dsimp only
    rw [hpending]
    cases s.pending with
    | none => rfl
    | some pending => rfl
  inputs s := by
    have h : (pushBack token).Leaves s fun _ t => ReadOn s.inputs t.inputs := by
      unfold pushBack
      rw [leaves_get_bind]
      split
      · exact .refl _
      · exact .refl _
    exact h

/-- Macros are kept by the scanner. -/
theorem solitary_addMacro (definition : Macro) : Solitary (modify (addMacro definition)) :=
  solitary_modify (fun _ => rfl) fun _ => rfl

/-- A note tells the position in the current input. -/
theorem solitary_noted (label : String) : Solitary (modify (noted label)) := by
  refine solitary_modify (fun s => ?_) fun _ => rfl
  unfold noted
  rw [position_focused]
  rfl

/-- So does the start of a token. -/
theorem solitary_noting : Solitary (modify noting) := by
  refine solitary_modify (fun s => ?_) fun _ => rfl
  show { s.focused with tokenStart := some s.focused.position } = _
  rw [position_focused]
  rfl

-- ---------------------------------------------------------------------------
-- The end of an input
-- ---------------------------------------------------------------------------

/-- Where the token starts that was not finished when its input came to an end. -/
def unfinished (s : Scanner) : Position :=
  (s.modeStart.orElse fun _ => s.tokenStart).getD s.position

/-- Reports that a token was not finished. -/
def reportRunaway {α : Type} : Run Scanner α := do
  let start := (← get).unfinished
  modify fun s => { s with lineLag := ((s.current?.map Stream.lineNo).getD 0 : Nat) - start.line }
  error "runaway_token" ("Unterminated token starting at line " ++ toString start.line)

/-- Delivers the end of the whole input, and remembers it. -/
def rememberEnd : Run Scanner (Option Token) := do
  let token := Token.endOfInput (← get).position
  modify fun s => { s with ended := some token }
  pure (some token)

/-- A token that was not finished is reported at its start. -/
theorem solitary_reportRunaway : Solitary (reportRunaway : Run Scanner α) := by
  refine solitary_get (fun s => ?_) fun s => ?_
  · have hsame : s.focused.unfinished = s.unfinished := by
      unfold unfinished
      rw [position_focused]
      rfl
    rw [hsame]
  · refine solitary_bind (solitary_modify (fun t => ?_) fun _ => rfl) fun _ =>
      (confined_error _ _).solitary
    rw [current?_focused]
    rfl

/-- The end of the whole input is remembered by the scanner. -/
theorem solitary_rememberEnd : Solitary rememberEnd := by
  refine solitary_get (fun s => ?_) fun s => ?_
  · rw [position_focused]
  · exact solitary_bind (solitary_modify (fun _ => rfl) fun _ => rfl) fun _ => solitary_pure _

/-- Goes back from an input that is done to the one that included it. -/
def goBack (done parent : Input) (below : List Input) : Run Scanner Unit := do
  emit (.fileCompleted done.stream.name)
  modify fun s =>
    { s with inputs := { parent with saved := none } :: below, pending := parent.saved }

/-- Delivers what is pushed back, if anything is. -/
def deliver : Run Scanner (Option Token) := do
  let token := (← get).pending
  modify fun s => { s with pending := none }
  pure token

/-- In another mode than the default one a token was not finished. -/
theorem endOfInput_run_of_away (hmode : s.mode ≠ s.defaultMode) :
    endOfInput.run s = reportRunaway.run s := by
  unfold endOfInput reportRunaway
  rw [run_bind, run_get]
  dsimp only
  rw [if_pos (bne_iff_ne.mpr hmode)]
  rfl

/-- **The end of an included input** goes back, runs the routine, and delivers what is pushed
back. -/
theorem endOfInput_run_of_parent (hmode : s.mode = s.defaultMode) {done parent : Input}
    {below : List Input} (hinputs : s.inputs = done :: parent :: below) :
    endOfInput.run s = (do
      goBack done parent below
      discard (perform done.atEnd)
      deliver : Run Scanner (Option Token)).run s := by
  have hhome : (s.mode != s.defaultMode) = false := bne_eq_false_iff_eq.mpr hmode
  have hsame (rest : Run Scanner (Option Token)) : (do
      emit (.fileCompleted done.stream.name)
      Run.set { s with inputs := { parent with saved := none } :: below, pending := parent.saved }
      rest).run s = (goBack done parent below >>= fun _ => rest).run s := by
    unfold goBack
    rw [bind_assoc]
    rfl
  unfold endOfInput
  rw [run_bind, run_get]
  dsimp only
  rw [hhome, hinputs, if_neg Bool.false_ne_true, List.append_nil]
  exact hsame _

/-- The end of the last input is that of the whole input. -/
theorem endOfInput_run_of_last (hmode : s.mode = s.defaultMode) (hinputs : s.inputs.length ≤ 1) :
    endOfInput.run s = rememberEnd.run s := by
  have hhome : (s.mode != s.defaultMode) = false := bne_eq_false_iff_eq.mpr hmode
  unfold endOfInput rememberEnd
  rw [run_bind, run_get]
  dsimp only
  rw [hhome, if_neg Bool.false_ne_true]
  split
  · next hmore =>
    rw [hmore] at hinputs
    exact absurd hinputs (by simp)
  · rfl

end Scanner

end GrammarEngine
