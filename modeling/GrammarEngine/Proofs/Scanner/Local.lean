import GrammarEngine.Proofs.Outcomes
import GrammarEngine.Scanner.Scan

/-!
# Scanning looks at the current input only

What a scanner does at its cursor depends on the current input, its patterns and its macros. The
inputs below, a token that was pushed back, the messages and the end of the whole input play no
part, and none of them is changed. So a file that was included is scanned as it would be scanned
alone (`Local`).

This holds as long as the routines of the patterns only compute (`Quiet`): a routine could push a
token back, or go on with another file.

Main results:

* `local_bind`, `local_get`, `local_onStream` — what is put together from local parts is local.
* `local_scanAtCursor` — so scanning at the cursor is.
-/

namespace GrammarEngine

/-- A stream goes on reading from where it came from. -/
structure Stream.Steady (s s' : Stream) : Prop where
  name : s'.name = s.name
  origin : s'.origin = s.origin

namespace Scanner

variable {α β : Type}

-- ---------------------------------------------------------------------------
-- Scanners that scan alike
-- ---------------------------------------------------------------------------

/-- Two scanners with the same patterns, modes and macros. -/
structure SameSetting (s t : Scanner) : Prop where
  lexicon : t.lexicon = s.lexicon
  defaultMode : t.defaultMode = s.defaultMode
  mode : t.mode = s.mode
  callsMacros : t.callsMacros = s.callsMacros
  maxDepth : t.maxDepth = s.maxDepth
  macros : t.macros = s.macros
  lineLag : t.lineLag = s.lineLag

/-- Two scanners that are at the same place of the same current input, too. -/
structure Alike (s t : Scanner) : Prop extends SameSetting s t where
  current : ∃ stream, s.current? = some stream ∧ t.current? = some stream

theorem SameSetting.refl (s : Scanner) : SameSetting s s := ⟨rfl, rfl, rfl, rfl, rfl, rfl, rfl⟩

theorem SameSetting.symm {s t : Scanner} (h : SameSetting s t) : SameSetting t s :=
  ⟨h.lexicon.symm, h.defaultMode.symm, h.mode.symm, h.callsMacros.symm, h.maxDepth.symm,
    h.macros.symm, h.lineLag.symm⟩

theorem SameSetting.trans {s t u : Scanner}
    (h : SameSetting s t) (h' : SameSetting t u) : SameSetting s u :=
  ⟨h'.lexicon.trans h.lexicon, h'.defaultMode.trans h.defaultMode, h'.mode.trans h.mode,
    h'.callsMacros.trans h.callsMacros, h'.maxDepth.trans h.maxDepth, h'.macros.trans h.macros,
    h'.lineLag.trans h.lineLag⟩

/-- Alike settings may be replaced on either side. -/
theorem SameSetting.congr {s s' t t' : Scanner} (h : SameSetting s t) (hs : SameSetting s s')
    (ht : SameSetting t t') : SameSetting s' t' := hs.symm.trans (h.trans ht)

/-- Scanners that scan alike have the same current input. -/
theorem Alike.current_eq {s t : Scanner} (h : Alike s t) : t.current? = s.current? := by
  obtain ⟨stream, hs, ht⟩ := h.current
  rw [hs, ht]

/-- And they are at the same position. -/
theorem Alike.position_eq {s t : Scanner} (h : Alike s t) : t.position = s.position := by
  obtain ⟨stream, hs, ht⟩ := h.current
  unfold position
  rw [hs, ht, h.lineLag]

/-- A scanner after it has scanned for a while: its current input has moved on, and nothing else. -/
structure Scanned (s s' : Scanner) : Prop where
  moved : ∃ input below stream start, s.inputs = input :: below ∧ input.stream.Steady stream ∧
    s' = { s with inputs := { input with stream := stream } :: below, tokenStart := start }

/-- The current input is the topmost one. -/
theorem current?_of_inputs {s : Scanner} {top : Input} {below : List Input}
    (hinputs : s.inputs = top :: below) : s.current? = some top.stream := by
  unfold current?
  rw [hinputs]
  rfl

/-- Without a current input there is none at all. -/
theorem inputs_eq_nil {s : Scanner} (h : s.current? = none) : s.inputs = [] := by
  rw [current?, Option.map_eq_none_iff, List.head?_eq_none_iff] at h
  exact h

/-- To do nothing is to scan nothing. -/
theorem Scanned.refl {s : Scanner} {stream : Stream}
    (h : s.current? = some stream) : Scanned s s := by
  obtain ⟨input, hinput, -⟩ := Option.map_eq_some_iff.mp h
  obtain ⟨below, hinputs⟩ := List.head?_eq_some_iff.mp hinput
  refine ⟨input, below, input.stream, s.tokenStart, hinputs, ⟨rfl, rfl⟩, ?_⟩
  rw [← hinputs]

/-- Scanning leaves the setting. -/
theorem Scanned.setting {s s' : Scanner} (h : Scanned s s') : SameSetting s s' := by
  obtain ⟨input, below, stream, start, -, -, rfl⟩ := h.moved
  exact ⟨rfl, rfl, rfl, rfl, rfl, rfl, rfl⟩

theorem Scanned.trans {s s' s'' : Scanner}
    (h : Scanned s s') (h' : Scanned s' s'') : Scanned s s'' := by
  obtain ⟨input, below, stream, start, hinputs, hsteady, rfl⟩ := h.moved
  obtain ⟨input', below', stream', start', hinputs', hsteady', rfl⟩ := h'.moved
  obtain ⟨rfl, rfl⟩ := List.cons.inj hinputs'
  exact ⟨input, below, stream', start', hinputs,
    ⟨hsteady'.name.trans hsteady.name, hsteady'.origin.trans hsteady.origin⟩, rfl⟩

/-- A run that looks at what scanners have in common that scan alike, and moves their current input
in the same way. -/
def Local (lexicon : Lexicon) (mode : Mode) (x : Run Scanner α) : Prop :=
  ∀ s t a s', s.lexicon = lexicon → s.mode = mode → Alike s t → x.Returns s a s' →
    ∃ t', x.Returns t a t' ∧ Alike s' t' ∧ Scanned t t'

/-- The patterns and the mode stay. -/
theorem Alike.stays {s s' t t' : Scanner} (h : Alike s t) (h' : Alike s' t')
    (hscanned : Scanned t t') : s'.lexicon = s.lexicon ∧ s'.mode = s.mode := by
  have hsetting := hscanned.setting
  exact ⟨h'.lexicon.symm.trans (hsetting.lexicon.trans h.lexicon),
    h'.mode.symm.trans (hsetting.mode.trans h.mode)⟩

-- ---------------------------------------------------------------------------
-- Putting local runs together
-- ---------------------------------------------------------------------------

variable {lexicon : Lexicon} {mode : Mode}

/-- To return a value looks at nothing. -/
theorem local_pure (a : α) : Local lexicon mode (pure a) := by
  intro s t b s' _ _ halike h
  obtain ⟨rfl, rfl⟩ := Run.returns_pure.mp h
  obtain ⟨stream, -, ht⟩ := halike.current
  exact ⟨t, Run.returns_pure.mpr ⟨rfl, rfl⟩, halike, .refl ht⟩

/-- One local part after another is local. -/
theorem local_bind {x : Run Scanner α} {f : α → Run Scanner β} (hx : Local lexicon mode x)
    (hf : ∀ a, Local lexicon mode (f a)) : Local lexicon mode (x >>= f) := by
  intro s t b s' hlexicon hmode halike h
  obtain ⟨a, s₁, hfirst, hrest⟩ := Run.returns_bind.mp h
  obtain ⟨t₁, hfirst', halike₁, hscanned₁⟩ := hx s t a s₁ hlexicon hmode halike hfirst
  obtain ⟨hlexicon₁, hmode₁⟩ := halike.stays halike₁ hscanned₁
  obtain ⟨t', hrest', halike', hscanned'⟩ :=
    hf a s₁ t₁ b s' (hlexicon₁.trans hlexicon) (hmode₁.trans hmode) halike₁ hrest
  exact ⟨t', Run.returns_bind.mpr ⟨a, t₁, hfirst', hrest'⟩, halike', hscanned₁.trans hscanned'⟩

/-- The state may be looked at, if the rest only uses what scanners have in common that
scan alike. -/
theorem local_get {f : Scanner → Run Scanner β} (hsame : ∀ s t, Alike s t → f t = f s)
    (hf : ∀ s, s.lexicon = lexicon → s.mode = mode → Local lexicon mode (f s)) :
    Local lexicon mode (Run.get >>= f) := by
  intro s t b s' hlexicon hmode halike h
  obtain ⟨s₁, s₂, hget, hrest⟩ := Run.returns_bind.mp h
  obtain ⟨rfl, rfl⟩ := Run.returns_get.mp hget
  obtain ⟨t', hrest', hkept⟩ := hf s hlexicon hmode s t b s' hlexicon hmode halike hrest
  refine ⟨t', Run.returns_bind.mpr ⟨t, t, Run.returns_get.mpr ⟨rfl, rfl⟩, ?_⟩, hkept⟩
  rw [hsame s t halike]
  exact hrest'

/-- A run that never returns is local. -/
theorem local_of_not_returns {x : Run Scanner α} (h : ∀ s a s', ¬ x.Returns s a s') :
    Local lexicon mode x :=
  fun s _ a s' _ _ _ hx => absurd hx (h s a s')

/-- A value that has to be there does not depend on the inputs. -/
theorem local_orFail (value : Option α) (fault : Fault) :
    Local lexicon mode (Run.orFail value fault) := by
  cases value with
  | none => exact local_of_not_returns fun _ _ _ => Run.not_returns_fail
  | some a => exact local_pure a

/-- Events are no part of what is looked at. -/
theorem local_emit (event : Event) : Local lexicon mode (Run.emit event) := by
  intro s t u s' _ _ halike h
  obtain rfl := Run.returns_emit.mp h
  obtain ⟨stream, -, ht⟩ := halike.current
  exact ⟨t, Run.returns_emit.mpr rfl, halike, .refl ht⟩

/-- It makes no difference if the value is not used. -/
theorem local_discard {x : Run Scanner α} (hx : Local lexicon mode x) :
    Local lexicon mode (discard x) := by
  intro s t u s' hlexicon hmode halike h
  obtain ⟨a, hx'⟩ := Run.returns_discard.mp h
  obtain ⟨t', ht', hkept⟩ := hx s t a s' hlexicon hmode halike hx'
  exact ⟨t', Run.returns_discard.mpr ⟨a, ht'⟩, hkept⟩

/-- What is local stays so when it is repeated. -/
theorem local_repeated {step : Run Scanner (Option α)} (hstep : Local lexicon mode step) (n : Nat) :
    Local lexicon mode (Run.repeated step n) := by
  induction n with
  | zero =>
    refine local_of_not_returns fun s a s' h => ?_
    obtain ⟨trace, h⟩ := h
    cases h
  | succ n ih =>
    rw [Run.repeated_succ]
    refine local_bind hstep fun a => ?_
    cases a with
    | none => exact ih
    | some a => exact local_pure a

/-- Work on the current stream replaces the topmost input and leaves the others. -/
theorem onStream_run {work : Run Stream α} {s : Scanner} {input : Input} {below : List Input}
    (h : s.inputs = input :: below) : (onStream work).run s = ⟨(work.run input.stream).result,
      { s with inputs := { input with stream := (work.run input.stream).state } :: below },
      (work.run input.stream).trace⟩ := by
  simp only [onStream, Run.run, h]

/-- Without an input there is nothing to work on. -/
theorem onStream_run_nil {work : Run Stream α} {s : Scanner} (h : s.inputs = []) :
    (onStream work).run s = ⟨.error .precondition, s, []⟩ := by
  simp only [onStream, Run.run, h]
  rfl

/-- Work on the current stream returns if there is one and the work returns on it. -/
theorem onStream_returns {work : Run Stream α} {s s' : Scanner} {a : α} :
    (onStream work).Returns s a s' ↔ ∃ input below stream, s.inputs = input :: below ∧
      work.Returns input.stream a stream ∧
        s' = { s with inputs := { input with stream := stream } :: below } := by
  constructor
  · rintro ⟨trace, h⟩
    cases hinputs : s.inputs with
    | nil =>
      rw [onStream_run_nil hinputs] at h
      cases h
    | cons input below =>
      rw [onStream_run hinputs, Outcome.mk.injEq] at h
      obtain ⟨hresult, hstate, -⟩ := h
      exact ⟨input, below, (work.run input.stream).state, rfl,
        ⟨(work.run input.stream).trace, by rw [← hresult]⟩, hstate.symm⟩
  · rintro ⟨input, below, stream, hinputs, ⟨trace, hwork⟩, rfl⟩
    exact ⟨trace, by rw [onStream_run hinputs, hwork]⟩

/-- Work on the current input is local, as long as that goes on reading from the same place. -/
theorem local_onStream {work : Run Stream α}
    (hwork : ∀ stream a stream', work.Returns stream a stream' → stream.Steady stream') :
    Local lexicon mode (onStream work) := by
  intro s t a s' _ _ halike h
  obtain ⟨input, below, stream, hinputs, hreturns, rfl⟩ := onStream_returns.mp h
  obtain ⟨top, hs, ht⟩ := halike.current
  obtain ⟨input', hinput', htop⟩ := Option.map_eq_some_iff.mp ht
  obtain ⟨below', hinputs'⟩ := List.head?_eq_some_iff.mp hinput'
  -- both current inputs are the same
  have hsame : input'.stream = input.stream := by
    unfold current? at hs
    rw [hinputs, List.head?_cons, Option.map_some, Option.some.injEq] at hs
    rw [htop, hs]
  refine ⟨{ t with inputs := { input' with stream := stream } :: below' }, ?_, ?_, ?_⟩
  · refine onStream_returns.mpr ⟨input', below', stream, hinputs', ?_, rfl⟩
    rw [hsame]
    exact hreturns
  · exact ⟨halike.toSameSetting.congr ⟨rfl, rfl, rfl, rfl, rfl, rfl, rfl⟩
      ⟨rfl, rfl, rfl, rfl, rfl, rfl, rfl⟩, stream, rfl, rfl⟩
  · refine ⟨input', below', stream, t.tokenStart, hinputs', ?_, rfl⟩
    rw [hsame]
    exact hwork _ _ _ hreturns

-- ---------------------------------------------------------------------------
-- Streams
-- ---------------------------------------------------------------------------

end Scanner

namespace Stream

variable {s s' : Stream}

theorem Steady.refl (s : Stream) : s.Steady s := ⟨rfl, rfl⟩

theorem Steady.trans {s'' : Stream} (h : s.Steady s') (h' : s'.Steady s'') : s.Steady s'' :=
  ⟨h'.name.trans h.name, h'.origin.trans h.origin⟩

/-- A line is taken from where the stream reads. -/
theorem takeLine_steady {line : List Char} (h : takeLine.Returns s line s') : s.Steady s' := by
  unfold takeLine at h
  obtain ⟨t, s₁, hget, h⟩ := Run.returns_bind.mp h
  obtain ⟨rfl, rfl⟩ := Run.returns_get.mp hget
  split at h
  · exact absurd h Run.not_returns_fail
  · obtain ⟨_, s₂, hset, h⟩ := Run.returns_bind.mp h
    obtain rfl := Run.returns_set.mp hset
    obtain ⟨-, rfl⟩ := Run.returns_pure.mp h
    exact ⟨rfl, rfl⟩

/-- Going on to the next line leaves the name of the stream and where it came from. -/
theorem readyNextLine_steady {ready : Bool}
    (h : readyNextLine.Returns s ready s') : s.Steady s' := by
  unfold readyNextLine at h
  obtain ⟨t, s₁, hget, h⟩ := Run.returns_bind.mp h
  obtain ⟨rfl, rfl⟩ := Run.returns_get.mp hget
  split at h
  · obtain ⟨-, rfl⟩ := Run.returns_pure.mp h
    exact .refl s
  · obtain ⟨line, s₂, htake, h⟩ := Run.returns_bind.mp h
    have hsteady := takeLine_steady htake
    split at h
    all_goals
      obtain ⟨_, s₃, hmodify, h⟩ := Run.returns_bind.mp h
      obtain rfl := Run.returns_modify.mp hmodify
      obtain ⟨-, rfl⟩ := Run.returns_pure.mp h
      exact ⟨hsteady.name, hsteady.origin⟩

/-- The cursor is found only where there is a line, and finding it changes nothing. -/
theorem theCursor_returns {c : Cursor} (h : theCursor.Returns s c s') :
    s.cursor = some c ∧ s = s' := by
  unfold theCursor at h
  obtain ⟨t, s₁, hget, h⟩ := Run.returns_bind.mp h
  obtain ⟨rfl, rfl⟩ := Run.returns_get.mp hget
  exact Run.returns_orFail.mp h

/-- Appending the next line leaves them as well. -/
theorem appendNextLine_steady {more : Bool}
    (h : appendNextLine.Returns s more s') : s.Steady s' := by
  unfold appendNextLine at h
  obtain ⟨c, s₁, hcursor, h⟩ := Run.returns_bind.mp h
  obtain ⟨-, rfl⟩ := theCursor_returns hcursor
  obtain ⟨line, s₂, htake, h⟩ := Run.returns_bind.mp h
  have hsteady := takeLine_steady htake
  split at h
  · obtain ⟨-, rfl⟩ := Run.returns_pure.mp h
    exact hsteady
  · obtain ⟨_, s₃, hmodify, h⟩ := Run.returns_bind.mp h
    obtain rfl := Run.returns_modify.mp hmodify
    obtain ⟨-, rfl⟩ := Run.returns_pure.mp h
    exact ⟨hsteady.name, hsteady.origin⟩

/-- So does moving the cursor. -/
theorem seek_steady {pos : Nat} {u : Unit} (h : (seek pos).Returns s u s') : s.Steady s' := by
  unfold seek at h
  obtain ⟨c, s₁, hcursor, h⟩ := Run.returns_bind.mp h
  obtain ⟨-, rfl⟩ := theCursor_returns hcursor
  obtain rfl := Run.returns_modify.mp h
  exact ⟨rfl, rfl⟩

/-- And so does injecting text. -/
theorem injectText_steady {text : List Char} {length stop : Nat}
    (h : (injectText text length).Returns s stop s') : s.Steady s' := by
  unfold injectText at h
  obtain ⟨c, s₁, hcursor, h⟩ := Run.returns_bind.mp h
  obtain ⟨-, rfl⟩ := theCursor_returns hcursor
  obtain ⟨_, s₂, hmodify, h⟩ := Run.returns_bind.mp h
  obtain rfl := Run.returns_modify.mp hmodify
  obtain ⟨-, rfl⟩ := Run.returns_pure.mp h
  exact ⟨rfl, rfl⟩

/-- The text of a macro is injected like any other. -/
theorem injectMacro_steady {definition : Macro} {args : List String} {text : String}
    {length maxDepth : Nat} {done : Bool}
    (h : (injectMacro definition args text length maxDepth).Returns s done s') : s.Steady s' := by
  unfold injectMacro at h
  obtain ⟨t, s₁, hget, h⟩ := Run.returns_bind.mp h
  obtain ⟨rfl, rfl⟩ := Run.returns_get.mp hget
  split at h
  · obtain ⟨-, rfl⟩ := Run.returns_pure.mp h
    exact .refl s
  · obtain ⟨stop, s₂, hinject, h⟩ := Run.returns_bind.mp h
    have hsteady := injectText_steady hinject
    obtain ⟨_, s₃, hmodify, h⟩ := Run.returns_bind.mp h
    obtain rfl := Run.returns_modify.mp hmodify
    obtain ⟨-, rfl⟩ := Run.returns_pure.mp h
    exact ⟨hsteady.name, hsteady.origin⟩

end Stream

namespace Scanner

variable {α : Type} {lexicon : Lexicon} {mode : Mode}

-- ---------------------------------------------------------------------------
-- Scanning at the cursor
-- ---------------------------------------------------------------------------

/-- The message of an error says what the scanner knows of the place where it is. -/
theorem errorAt_result (id text : String) (position : Option Position) (data : Payload)
    (s : Scanner) :
    ((errorAt id text position data : Run Scanner α).run s).result =
      .error (.parse ⟨.error, id, text, position.getD s.position, s.line?, data, s.history⟩) := by
  let m : Message := ⟨.error, id, text, position.getD s.position, s.line?, data, s.history⟩
  show ((MessageLog.error m.id m.text m.position m.line m.data m.calls).run s.messages).result = _
  unfold MessageLog.error MessageLog.write
  cases hconsole : s.messages.console <;> simp [hconsole, m]

/-- An error that is reported ends a run. -/
theorem errorAt_fails (id text : String) (position : Option Position) (data : Payload)
    (s : Scanner) :
    ∃ fault, fault.Tells id text ∧ (errorAt id text position data : Run Scanner α).Fails s fault :=
  ⟨_, ⟨_, rfl, rfl, rfl⟩, errorAt_result id text position data s⟩

/-- An error is never returned from. -/
theorem not_returns_errorAt {id text : String} {position : Option Position} {data : Payload}
    {s s' : Scanner} {a : α} : ¬ (errorAt id text position data).Returns s a s' := by
  intro h
  obtain ⟨fault, -, hfails⟩ := errorAt_fails id text position data s
  cases hfails.of_returns h

/-- An error does not return, so nothing is to be shown. -/
theorem local_error (id text : String) : Local lexicon mode (error id text : Run Scanner α) :=
  local_of_not_returns fun _ _ _ => not_returns_errorAt

/-- The cursor is that of the current input. -/
theorem local_theCursor : Local lexicon mode (onStream Stream.theCursor) :=
  local_onStream fun _ _ _ h => by
    rw [(Stream.theCursor_returns h).2]
    exact .refl _

/-- The cursor is moved in the current input. -/
theorem local_seek (pos : Nat) : Local lexicon mode (onStream (Stream.seek pos)) :=
  local_onStream fun _ _ _ => Stream.seek_steady

/-- Resolving a macro looks at the arguments only, and where it fails it does not return. -/
theorem local_resolve (table : MacroTable) (args : List String) (position : Option Position) :
    Local lexicon mode (table.resolve args position) := by
  unfold MacroTable.resolve
  refine local_bind (local_orFail _ _) fun written => ?_
  dsimp only
  split
  · exact local_pure _
  · refine local_bind (local_orFail _ _) fun text => ?_
    exact local_bind (local_emit _) fun _ => local_pure _

/-- Expanding a call looks at the macros and at the current input. -/
theorem local_expandCall (call : Call) : Local lexicon mode (expandCall call) := by
  unfold expandCall
  refine local_get (fun s t halike => ?_) fun s _ _ => ?_
  · rw [halike.macros, halike.position_eq, halike.maxDepth]
  · refine local_bind (local_resolve _ _ _) fun resolution => ?_
    cases resolution with
    | undefined => exact local_error _ _
    | missing => exact local_discard (local_onStream fun _ _ _ => Stream.injectText_steady)
    | expanded definition text =>
      dsimp only
      split
      · exact local_discard (local_onStream fun _ _ _ => Stream.injectText_steady)
      · refine local_bind (local_onStream fun _ _ _ => Stream.injectMacro_steady) fun done => ?_
        cases done with
        | true => exact local_pure _
        | false => exact local_error _ _

/-- Reading a call looks at the lines of the current input. -/
theorem local_readCallRound : Local lexicon mode readCallRound := by
  unfold readCallRound
  refine local_bind local_theCursor fun c => ?_
  split
  · exact local_bind (local_seek _) fun _ => local_pure _
  · split
    · exact local_error _ _
    · refine local_bind (local_onStream fun _ _ _ => Stream.appendNextLine_steady) fun more => ?_
      cases more with
      | true => exact local_pure _
      | false => exact local_error _ _

/-- It does so in every round. -/
theorem local_readCall : Local lexicon mode readCall := by
  unfold readCall
  refine local_get (fun s t halike => ?_) fun s _ _ => ?_
  · rw [halike.current_eq]
  · exact local_repeated local_readCallRound _

/-- A call at the cursor is read and expanded in the current input. -/
theorem local_expandAtCursor : Local lexicon mode expandAtCursor := by
  unfold expandAtCursor
  refine local_get (fun s t halike => ?_) fun s _ _ => ?_
  · rw [halike.current_eq, halike.callsMacros]
  · split
    · split
      · refine local_bind local_readCall fun call => ?_
        exact local_bind (local_expandCall call) fun _ => local_pure _
      · exact local_pure _
    · exact local_pure _

/-- So is a call inside a match. -/
theorem local_expandInMatch (start : Nat) (m : Match) :
    Local lexicon mode (expandInMatch start m) := by
  unfold expandInMatch
  refine local_get (fun s t halike => ?_) fun s _ _ => ?_
  · rw [halike.callsMacros]
  · split
    · exact local_pure _
    · refine local_bind local_theCursor fun c => ?_
      dsimp only
      split
      · exact local_pure _
      · refine local_bind (local_seek _) fun _ =>
          local_bind (local_discard local_expandAtCursor) fun _ => ?_
        exact local_bind (local_seek _) fun _ => local_pure _

-- ---------------------------------------------------------------------------
-- Routines that only compute
-- ---------------------------------------------------------------------------

/-- The patterns of a mode have no routines but such as compute a token, or give up. -/
def Quiet (lexicon : Lexicon) (mode : Mode) : Prop :=
  ∀ p ∈ (lexicon.patterns? mode).getD [], ∀ routine, p.routine = some routine → ∀ m,
    (∃ kind value, routine m = .done kind value) ∨ ∃ fault, routine m = .fail fault

/-- The pattern that matches first is one of the patterns tried. -/
theorem mem_of_firstMatch? {patterns : List TokenPattern} {c : Cursor} {p : TokenPattern}
    {m : Match} (h : firstMatch? patterns c = some (p, m)) : p ∈ patterns := by
  unfold firstMatch? at h
  obtain ⟨q, hq, hmatch⟩ := List.exists_of_findSome?_eq_some h
  obtain ⟨m', -, heq⟩ := Option.map_eq_some_iff.mp hmatch
  rw [Prod.mk.injEq] at heq
  rw [← heq.1]
  exact hq

/-- Reporting what is not matched does not return. -/
theorem local_reportUnmatched : Local lexicon mode reportUnmatched := by
  unfold reportUnmatched
  refine local_bind local_theCursor fun c => ?_
  refine local_bind (local_onStream fun s b s' h => ?_) fun readUp => ?_
  · unfold Stream.isReadUp at h
    obtain ⟨t, s₁, hget, h⟩ := Run.returns_bind.mp h
    obtain ⟨rfl, rfl⟩ := Run.returns_get.mp hget
    split at h
    · exact absurd h Run.not_returns_fail
    · obtain ⟨-, rfl⟩ := Run.returns_pure.mp h
      exact .refl s
  · split
    · exact local_error _ _
    · exact local_error _ _

/-- The start of the token is noted first. -/
theorem local_noteStart :
    Local lexicon mode (Run.modify fun s => { s with tokenStart := some s.position }) := by
  intro s t u s' _ _ halike h
  obtain rfl := Run.returns_modify.mp h
  obtain ⟨stream, hs, ht⟩ := halike.current
  obtain ⟨input, hinput, -⟩ := Option.map_eq_some_iff.mp ht
  obtain ⟨below, hinputs⟩ := List.head?_eq_some_iff.mp hinput
  refine ⟨{ t with tokenStart := some t.position }, Run.returns_modify.mpr rfl, ?_, ?_⟩
  · exact ⟨halike.toSameSetting.congr ⟨rfl, rfl, rfl, rfl, rfl, rfl, rfl⟩
      ⟨rfl, rfl, rfl, rfl, rfl, rfl, rfl⟩, stream, hs, ht⟩
  · refine ⟨input, below, input.stream, some t.position, hinputs, .refl _, ?_⟩
    rw [← hinputs]

/-- A routine that only computes looks at nothing. -/
theorem local_perform {routine : Routine} (h : (∃ kind value, routine = .done kind value) ∨
    ∃ fault, routine = .fail fault) : Local lexicon mode (perform routine) := by
  rcases h with ⟨kind, value, rfl⟩ | ⟨fault, rfl⟩
  · exact local_pure _
  · exact local_of_not_returns fun _ _ _ => Run.not_returns_fail

/-- **Scanning at the cursor** is local, where the patterns of the mode are quiet. -/
theorem local_scanAtCursor (hquiet : Quiet lexicon mode) : Local lexicon mode scanAtCursor := by
  unfold scanAtCursor
  refine local_bind local_noteStart fun _ => ?_
  refine local_get (fun s t halike => ?_) fun s _ _ => ?_
  · rw [halike.position_eq]
  refine local_bind local_expandAtCursor fun expanded => ?_
  cases expanded with
  | true => exact local_pure _
  | false =>
    refine local_get (fun s t halike => ?_) fun s hlexicon hmode => ?_
    · rw [halike.lexicon, halike.mode]
    refine local_bind local_theCursor fun c => ?_
    split
    · exact local_bind local_reportUnmatched fun _ => local_pure _
    · next p m hmatch =>
      rw [hlexicon, hmode] at hmatch
      refine local_bind (local_seek _) fun _ => ?_
      -- what is made of the match, whether or not calls in it are looked for
      dsimp only
      split
      all_goals
        refine local_bind (by first | exact local_pure _ | exact local_expandInMatch _ _)
          fun expanded => ?_
        split
        · exact local_pure _
        · split
          · next routine hroutine =>
            have hcomputes := hquiet p (mem_of_firstMatch? hmatch) routine hroutine m
            exact local_bind (local_perform hcomputes) fun _ => local_pure _
          · exact local_bind (local_pure _) fun _ => local_pure _

end Scanner

end GrammarEngine
