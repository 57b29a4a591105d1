import GrammarEngine.Proofs.Scanner.Rounds

/-!
# Work at the cursor

Most of what a scanner does concerns the text at its cursor. Such work is confined: of the inputs it
sees the current one only, and all that it changes are the place in that input and the messages
(`Confined`). Reporting, opening a file, reading and replacing a call, and looking for a match are
of this kind; switching modes, pushing tokens back and going to another input are not.

Main results:

* `Confined.alone` — confined work does not see the inputs below the current one.
* `Confined.busied` — what it changes.
* `confined_report`, `confined_openFile`, `confined_inject` — some of the requests are
  confined work.
* `confined_expandAtCursor`, `confined_expandInMatch`, `confined_reportUnmatched` — so are the
  parts of a scan.
-/

namespace GrammarEngine

open Run

-- ---------------------------------------------------------------------------
-- Streams
-- ---------------------------------------------------------------------------

namespace Stream

variable {α : Type}

/-- Work on a stream after which it goes on reading from where it came from. -/
def Stays (work : Run Stream α) : Prop := ∀ s₀ : Stream, Keeps s₀.Steady work

/-- Work after which a stream goes on from where it came is steady from any stream. -/
theorem Stays.steady {work : Run Stream α} (h : Stays work) (s : Stream) :
    work.Leaves s fun _ s' => s.Steady s' :=
  h s s (.refl s)

/-- Finding the cursor changes nothing. -/
theorem stays_theCursor : Stays theCursor := fun _ => keeps_get_bind fun s hs => by
  rw [leaves_orFail]
  exact hs

/-- Taking a line moves on in the text, which keeps its origin. -/
theorem stays_takeLine : Stays takeLine := fun _ => keeps_get_bind fun s hs => by
  split
  · exact hs
  · exact ⟨hs.name, hs.origin⟩

/-- Going on to the next line keeps the origin. -/
theorem stays_readyNextLine : Stays readyNextLine := fun s₀ => keeps_get_bind fun s hs => by
  split
  · exact hs
  · refine keeps_bind (stays_takeLine s₀) (fun line => ?_) s hs
    split
    all_goals exact keeps_bind (keeps_modify fun _ hs => ⟨hs.name, hs.origin⟩) fun _ => keeps_pure _

/-- Lines are appended from the same origin. -/
theorem stays_appendNextLine : Stays appendNextLine := fun s₀ =>
  keeps_bind (stays_theCursor s₀) fun c => keeps_bind (stays_takeLine s₀) fun line => by
    split
    · exact keeps_pure _
    · exact keeps_bind (keeps_modify fun _ hs => ⟨hs.name, hs.origin⟩) fun _ => keeps_pure _

/-- Whether all is read is only looked at. -/
theorem stays_isReadUp : Stays isReadUp := fun _ => keeps_get_bind fun s hs => by
  split
  · exact hs
  · exact hs

/-- Forgetting finished calls is no matter of the origin. -/
theorem stays_cleanup : Stays (modify cleanup) :=
  fun _ => keeps_modify fun _ hs => ⟨hs.name, hs.origin⟩

/-- The cursor moves within its line. -/
theorem stays_seek (pos : Nat) : Stays (seek pos) := fun s₀ =>
  keeps_bind (stays_theCursor s₀) fun _ => keeps_modify fun _ hs => ⟨hs.name, hs.origin⟩

/-- Text is injected into the line, and the file stays the one it is. -/
theorem stays_injectText (text : List Char) (length : Nat) :
    Stays (injectText text length) := fun s₀ =>
  keeps_bind (stays_theCursor s₀) fun _ =>
    keeps_bind (keeps_modify fun _ hs => ⟨hs.name, hs.origin⟩) fun _ => keeps_pure _

/-- The text of a macro is injected like any other. -/
theorem stays_injectMacro (definition : Macro) (args : List String) (text : String)
    (length maxDepth : Nat) : Stays (injectMacro definition args text length maxDepth) :=
  fun s₀ => keeps_get_bind fun s hs => by
  split
  · exact hs
  · refine keeps_bind (stays_injectText _ _ s₀) (fun stop => ?_) s hs
    exact keeps_bind (keeps_modify fun _ hs => ⟨hs.name, hs.origin⟩) fun _ => keeps_pure _

end Stream

namespace Scanner

variable {α β : Type} {s s₀ t u : Scanner}

-- ---------------------------------------------------------------------------
-- Work that is confined to the cursor
-- ---------------------------------------------------------------------------

/-- A scanner that has no input but the current one. -/
def focused (s : Scanner) : Scanner := { s with inputs := s.current?.toList.map ({ stream := · }) }

/-- The current input is the one that is left. -/
@[simp] theorem current?_focused (s : Scanner) : s.focused.current? = s.current? := by
  unfold focused
  cases hcurrent : s.current? with
  | none => rfl
  | some stream => rfl

/-- The position is one in the current input. -/
theorem position_focused (s : Scanner) : s.focused.position = s.position := by
  unfold position
  rw [current?_focused]
  rfl

/-- The line is one of the current input. -/
theorem line?_focused (s : Scanner) : s.focused.line? = s.line? := by
  unfold line?
  rw [current?_focused]

/-- The macros being expanded are those of the current input. -/
theorem history_focused (s : Scanner) : s.focused.history = s.history := by
  unfold history
  rw [current?_focused]

/-- Without inputs there is nothing to leave out. -/
theorem focused_of_nil (h : s.inputs = []) : s.focused = s := by
  unfold focused current?
  rw [h]
  exact congrArg (fun inputs => { s with inputs := inputs }) h.symm

/-- With inputs the topmost one is left, without what was kept for its end. -/
theorem focused_of_cons {input : Input} {below : List Input} (h : s.inputs = input :: below) :
    s.focused = { s with inputs := [{ stream := input.stream }] } := by
  unfold focused
  rw [current?_of_inputs h]
  rfl

/-- Work that is confined to the current input and to the messages. -/
inductive Confined : {α : Type} → Run Scanner α → Prop
  | onStream {α : Type} {work : Run Stream α} (h : Stream.Stays work) : Confined (onStream work)
  | onMessages {α : Type} (work : Run MessageLog α) : Confined (onMessages work)
  | look {α : Type} {f : Scanner → Run Scanner α}
      (hsame : ∀ s, f s.focused = f s) (hf : ∀ s, Confined (f s)) : Confined (get >>= f)
  | emit (event : Event) : Confined (emit event)
  | giveUp {α : Type} (fault : Fault) : Confined (fail fault : Run Scanner α)
  | done {α : Type} (a : α) : Confined (pure a)
  | andThen {α β : Type} {x : Run Scanner α} {f : α → Run Scanner β}
      (hx : Confined x) (hf : ∀ a, Confined (f a)) : Confined (x >>= f)

/-- Inputs of which the current one may have been read further. -/
inductive ReadOn : List Input → List Input → Prop
  | nil : ReadOn [] []
  | cons {input : Input} {below : List Input} {stream : Stream} (h : input.stream.Steady stream) :
    ReadOn (input :: below) ({ input with stream := stream } :: below)

theorem ReadOn.refl (inputs : List Input) : ReadOn inputs inputs := by
  cases inputs with
  | nil => exact .nil
  | cons input below => exact .cons (.refl input.stream)

/-- No input is added by reading on. -/
theorem ReadOn.eq_nil {inputs : List Input} (h : ReadOn [] inputs) : inputs = [] := by
  cases h
  rfl

theorem ReadOn.trans {i j k : List Input} (h : ReadOn i j) (h' : ReadOn j k) : ReadOn i k := by
  cases h with
  | nil => exact h'
  | cons hsteady =>
    cases h' with
    | cons hsteady' => exact .cons (hsteady.trans hsteady')

/-- A scanner that has read on in its current input. Besides, it may have reported, noted and
defined something. -/
structure Busied (s t : Scanner) : Prop where
  inputs : ReadOn s.inputs t.inputs
  rest : t = { s with
    inputs := t.inputs
    messages := t.messages
    macros := t.macros
    notes := t.notes
    tokenStart := t.tokenStart
    lineLag := t.lineLag }

/-- A scanner that differs in what may change, but for its inputs, is busied. -/
theorem Busied.of_inputs (hinputs : t.inputs = s.inputs) (hrest : t = { s with
    inputs := t.inputs, messages := t.messages, macros := t.macros, notes := t.notes, tokenStart :=
      t.tokenStart,
    lineLag := t.lineLag }) : Busied s t := ⟨hinputs ▸ .refl _, hrest⟩

theorem Busied.refl (s : Scanner) : Busied s s := .of_inputs rfl rfl

theorem Busied.trans (h : Busied s t) (h' : Busied t u) : Busied s u := by
  refine ⟨h.inputs.trans h'.inputs, h'.rest.trans ?_⟩
  rw [h.rest]

/-- **Confined work** does not see the inputs below the current one. -/
theorem Confined.alone {x : Run Scanner α} (h : Confined x) (s : Scanner) :
    x.run s.focused = ⟨(x.run s).result, (x.run s).state.focused, (x.run s).trace⟩ := by
  induction h generalizing s with
  | onStream _ =>
    cases hinputs : s.inputs with
    | nil =>
      rw [focused_of_nil hinputs, onStream_run_nil hinputs]
      exact congrArg (Outcome.mk _ · _) (focused_of_nil hinputs).symm
    | cons input below =>
      rw [focused_of_cons hinputs, onStream_run rfl, onStream_run hinputs]
      rfl
  | onMessages work => rfl
  | look hsame _ ih =>
    rw [run_bind, run_get, run_bind, run_get]
    dsimp only
    rw [hsame, ih]
  | emit event => rfl
  | giveUp fault => rfl
  | done a => rfl
  | andThen _ _ ihx ih =>
    rw [run_bind, ihx, run_bind]
    rcases Run.run _ s with ⟨fault | a, t, trace⟩
    · rfl
    · dsimp only
      rw [ih]

/-- **What confined work changes.** At most the current input is read further, and some more is
known. -/
theorem Confined.busied {x : Run Scanner α} (h : Confined x) (s : Scanner) :
    x.Leaves s fun _ t => Busied s t := by
  induction h generalizing s with
  | @onStream _ work hstays =>
    unfold Leaves
    cases hinputs : s.inputs with
    | nil =>
      rw [onStream_run_nil hinputs]
      exact .refl s
    | cons input below =>
      rw [onStream_run hinputs]
      refine ⟨?_, rfl⟩
      rw [hinputs]
      exact .cons (hstays.steady input.stream)
  | onMessages work => exact .of_inputs rfl rfl
  | look _ _ ih => exact leaves_get_bind.mpr (ih s s)
  | emit event => exact .refl s
  | giveUp fault => exact .refl s
  | done a => exact .refl s
  | andThen _ _ ihx ih =>
    exact (ihx s).bind (fun a t h => (ih a t).mono fun _ _ h' => h.trans h') fun _ _ h => h

/-- A value that has to be there is looked for nowhere. -/
theorem confined_orFail (value : Option α) (fault : Fault) :
    Confined (orFail value fault : Run Scanner α) := by
  cases value with
  | none => exact .giveUp fault
  | some a => exact .done a

/-- What is confined stays so when its value is changed. -/
theorem confined_map {x : Run Scanner α} (h : Confined x) (f : α → β) : Confined (f <$> x) := by
  rw [← bind_pure_comp]
  exact .andThen h fun a => .done _

/-- And when its value is dropped. -/
theorem confined_discard {x : Run Scanner α} (h : Confined x) :
    Confined (discard x) := confined_map h fun _ => ()

/-- What is confined may be repeated. -/
theorem confined_repeated {step : Run Scanner (Option α)} (h : Confined step) (n : Nat) :
    Confined (repeated step n) := by
  induction n with
  | zero => exact .giveUp .exhausted
  | succ n ih =>
    rw [repeated_succ]
    refine .andThen h fun found => ?_
    cases found with
    | none => exact ih
    | some a => exact .done a

/-- A report looks at the position only, and goes to the messages. -/
theorem confined_report (severity : Severity) (id text : String) (position : Option Position)
    (data : Payload) : Confined (report severity id text position data) := by
  refine .look (fun s => ?_) fun s => confined_discard (.onMessages _)
  rw [position_focused, line?_focused, history_focused]

/-- An error is reported and raised. -/
theorem confined_errorAt (id text : String) (position : Option Position) (data : Payload) :
    Confined (errorAt id text position data : Run Scanner α) := by
  refine .look (fun s => ?_) fun s => .onMessages _
  rw [position_focused, line?_focused, history_focused]

/-- An error at the cursor is one at its position. -/
theorem confined_error (id text : String) : Confined (error id text : Run Scanner α) :=
  confined_errorAt id text none .null

/-- Opening a file looks at the disk, which is no input yet. -/
theorem confined_openFile (name id complaint : String) (position : Option Position) :
    Confined (openFile name id complaint position) := by
  refine .look (fun s => rfl) fun s => ?_
  split
  · exact .andThen (.emit _) fun _ => .done _
  · split
    · exact confined_errorAt _ _ _ _
    · exact .giveUp _

/-- Text is injected at the cursor. -/
theorem confined_inject (text : String) (length : Nat) : Confined (inject text length) := by
  refine .look (fun s => ?_) fun s => ?_
  · have hempty : s.focused.inputs.isEmpty = s.inputs.isEmpty := by
      cases hinputs : s.inputs with
      | nil => rw [focused_of_nil hinputs, hinputs]
      | cons input below =>
        rw [focused_of_cons hinputs]
        rfl
    rw [hempty]
  · split
    · exact .giveUp _
    · exact confined_discard (.onStream (Stream.stays_injectText _ _))

/-- Resolving a macro reports at most. -/
theorem confined_resolve (table : MacroTable) (args : List String) (position : Option Position) :
    Confined (table.resolve args position : Run Scanner Resolution) := by
  unfold MacroTable.resolve
  refine .andThen (confined_orFail _ _) fun written => ?_
  dsimp only
  split
  · exact .done _
  · exact .andThen (confined_orFail _ _) fun text => .andThen (.emit _) fun _ => .done _

/-- A call is expanded at the cursor. -/
theorem confined_expandCall (call : Call) : Confined (expandCall call) := by
  have hdrop : Confined (discard (onStream (Stream.injectText [] call.length))) :=
    confined_discard (.onStream (Stream.stays_injectText _ _))
  refine .look (fun s => ?_) fun s => .andThen (confined_resolve _ _ _) fun resolution => ?_
  · rw [position_focused]
    rfl
  · cases resolution with
    | undefined => exact confined_error _ _
    | missing => exact hdrop
    | expanded definition text =>
      dsimp only
      split
      · exact hdrop
      · refine .andThen (.onStream (Stream.stays_injectMacro _ _ _ _ _)) fun done => ?_
        split
        · exact confined_error _ _
        · exact .done _

/-- The cursor is that of the current input. -/
theorem confined_theCursor : Confined (onStream Stream.theCursor) :=
  .onStream Stream.stays_theCursor

/-- It is moved there. -/
theorem confined_seek (pos : Nat) : Confined (onStream (Stream.seek pos)) :=
  .onStream (Stream.stays_seek pos)

/-- To read a call the lines of the current input are enough. -/
theorem confined_readCallRound : Confined readCallRound := by
  refine .andThen confined_theCursor fun c => ?_
  split
  · exact .andThen (confined_seek _) fun _ => .done _
  · split
    · exact confined_error _ _
    · refine .andThen (.onStream Stream.stays_appendNextLine) fun more => ?_
      split
      · exact .done _
      · exact confined_error _ _

/-- So they are for all rounds of reading it. -/
theorem confined_readCall : Confined readCall := by
  refine .look (fun s => ?_) fun s => confined_repeated confined_readCallRound _
  rw [current?_focused]

/-- A call at the cursor is read and expanded there. -/
theorem confined_expandAtCursor : Confined expandAtCursor := by
  refine .look (fun s => ?_) fun s => ?_
  · rw [current?_focused]
    rfl
  · split
    · split
      · exact .andThen confined_readCall fun call =>
          .andThen (confined_expandCall call) fun _ => .done _
      · exact .done _
    · exact .done _

/-- A call inside a match is read and expanded there as well. -/
theorem confined_expandInMatch (start : Nat) (m : Match) : Confined (expandInMatch start m) := by
  refine .look (fun s => rfl) fun s => ?_
  split
  · exact .done _
  · refine .andThen confined_theCursor fun c => ?_
    dsimp only
    split
    · exact .done _
    · refine .andThen (confined_seek _) fun _ =>
        .andThen (confined_discard confined_expandAtCursor) fun _ => ?_
      exact .andThen (confined_seek _) fun _ => .done _

/-- What no pattern matches is reported at the cursor. -/
theorem confined_reportUnmatched : Confined reportUnmatched := by
  refine .andThen confined_theCursor fun c =>
    .andThen (.onStream Stream.stays_isReadUp) fun readUp => ?_
  split
  · exact confined_error _ _
  · exact confined_error _ _

end Scanner

end GrammarEngine
