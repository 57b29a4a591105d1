import GrammarEngine.Proofs.Scanner.Nesting
import GrammarEngine.Proofs.Scanner.Transcript

/-!
# Where the default mode is left

A scanner only switches modes for its routines: while a token is scanned, when the routine of its
pattern is run, and at the end of a file, when the routine left for that is run. What modes a
routine leads through is told by its requests, one after the other (`course`), and a round runs at
most one routine (`roundRoutine?`). All else leaves the mode, and what has been kept about the
tokens, as it is (`SameStarts`). So a scanner keeps where the token starts in which it last left the
default mode, if several requests make up one course as well (`Through`).

Main results:

* `perform_through` — what a routine leaves that leads through modes.
* `scanRound_through` — what a round leaves.
-/

namespace GrammarEngine

namespace Scanner

variable {α β : Type} {t₀ t t' t'' : Scanner} {s s' : Stream} {c : Cursor}
  {modes modes' : List Mode}

-- ---------------------------------------------------------------------------
-- What leaves the mode as it is
-- ---------------------------------------------------------------------------

/-- Two scanners in the same mode, which have kept the same about the starts of tokens. -/
structure SameStarts (t t' : Scanner) : Prop where
  mode : t'.mode = t.mode
  defaultMode : t'.defaultMode = t.defaultMode
  tokenStart : t'.tokenStart = t.tokenStart
  modeStart : t'.modeStart = t.modeStart

theorem SameStarts.refl (t : Scanner) : SameStarts t t := ⟨rfl, rfl, rfl, rfl⟩

theorem SameStarts.trans (h : SameStarts t t') (h' : SameStarts t' t'') : SameStarts t t'' :=
  ⟨h'.mode.trans h.mode, h'.defaultMode.trans h.defaultMode, h'.tokenStart.trans h.tokenStart,
    h'.modeStart.trans h.modeStart⟩

/-- A run that leaves the mode as it is, and what has been kept about the starts of tokens. -/
def KeepsStarts (x : Run Scanner α) : Prop := ∀ t, x.Leaves t fun _ t' => SameStarts t t'

/-- One run after the other leaves the mode as it is. -/
theorem keepsStarts_bind {x : Run Scanner α} {f : α → Run Scanner β} (hx : KeepsStarts x)
    (hf : ∀ a, KeepsStarts (f a)) : KeepsStarts (x >>= f) := fun t =>
  (hx t).bind (fun a t₁ h => (hf a t₁).mono fun _ _ h' => h.trans h') fun _ _ h => h

/-- Looking at the scanner leaves it as it is. -/
theorem keepsStarts_get_bind {f : Scanner → Run Scanner α} (hf : ∀ t, KeepsStarts (f t)) :
    KeepsStarts (Run.get >>= f) := fun t => Run.leaves_get_bind.mpr (hf t t)

/-- To return a value leaves all as it is. -/
theorem keepsStarts_pure (a : α) : KeepsStarts (pure a) := SameStarts.refl

/-- A change that is no matter of modes. -/
theorem keepsStarts_modify {f : Scanner → Scanner} (hf : ∀ t, SameStarts t (f t)) :
    KeepsStarts (Run.modify f) := hf

/-- The value does not matter. -/
theorem keepsStarts_discard {x : Run Scanner α} (hx : KeepsStarts x) :
    KeepsStarts (discard x) := fun t =>
  Run.leaves_discard.mpr (hx t)

/-- Streams know nothing of modes. -/
theorem keepsStarts_onStream (work : Run Stream α) : KeepsStarts (onStream work) := by
  intro t
  cases hcurrent : t.current? with
  | none => exact (leaves_onStream_of_none hcurrent).mpr (.refl t)
  | some s =>
    rw [leaves_onStream hcurrent]
    exact ⟨rfl, rfl, rfl, rfl⟩

/-- An error does not change the mode. -/
theorem keepsStarts_errorAt (id text : String) (position : Option Position) (data : Payload) :
    KeepsStarts (errorAt id text position data : Run Scanner α) := fun _ => ⟨rfl, rfl, rfl, rfl⟩

/-- Neither does a report. -/
theorem keepsStarts_report (severity : Severity) (id text : String) (position : Option Position)
    (data : Payload) : KeepsStarts (report severity id text position data) :=
  keepsStarts_get_bind fun _ => keepsStarts_discard fun _ => ⟨rfl, rfl, rfl, rfl⟩

/-- Nor does resolving a macro. -/
theorem keepsStarts_resolve (table : MacroTable) (call : Call) (position : Option Position) :
    KeepsStarts (table.resolve (call.name :: call.args) position) := fun t =>
  (resolve_leaves table call position).mono fun _ _ h => h.1 ▸ .refl t

/-- A call is expanded in the mode it was found in. -/
theorem keepsStarts_expandCall (call : Call) : KeepsStarts (expandCall call) := by
  have hinject (text : List Char) : KeepsStarts
      (discard (onStream (Stream.injectText text call.length))) :=
    keepsStarts_discard (keepsStarts_onStream _)
  refine keepsStarts_get_bind fun t =>
    keepsStarts_bind (keepsStarts_resolve _ _ _) fun resolution => ?_
  cases resolution with
  | undefined => exact keepsStarts_errorAt _ _ _ _
  | missing => exact hinject _
  | expanded definition text =>
    dsimp only
    split
    · exact hinject _
    · refine keepsStarts_bind (keepsStarts_onStream _) fun done => ?_
      cases done with
      | true => exact keepsStarts_pure ()
      | false => exact keepsStarts_errorAt _ _ _ _

/-- Reading a call stays in the mode. -/
theorem keepsStarts_readCallRound : KeepsStarts readCallRound := by
  refine keepsStarts_bind (keepsStarts_onStream _) fun c => ?_
  split
  · exact keepsStarts_bind (keepsStarts_onStream _) fun _ => keepsStarts_pure _
  · split
    · exact keepsStarts_errorAt _ _ _ _
    · refine keepsStarts_bind (keepsStarts_onStream _) fun more => ?_
      cases more with
      | true => exact keepsStarts_pure none
      | false => exact keepsStarts_errorAt _ _ _ _

/-- So do all rounds of reading it. -/
theorem keepsStarts_readCall : KeepsStarts readCall := by
  refine keepsStarts_get_bind fun t₀ t =>
    Run.repeated_keeps (SameStarts t) (fun t₁ h => ?_) (fun _ h => h) (.refl t) _
  refine (keepsStarts_readCallRound t₁).mono fun r t₂ h' => ?_
  rcases r with fault | (_ | call) <;> exact h.trans h'

/-- A call is read and replaced in the same mode. -/
theorem keepsStarts_replaceCall : KeepsStarts replaceCall :=
  keepsStarts_bind keepsStarts_readCall keepsStarts_expandCall

/-- And so it is where the call stands inside a match. -/
theorem keepsStarts_replaceCallAt (start back : Nat) : KeepsStarts (replaceCallAt start back) :=
  keepsStarts_bind (keepsStarts_onStream _) fun _ =>
    keepsStarts_bind keepsStarts_replaceCall fun _ => keepsStarts_onStream _

/-- What is not matched is reported in the mode it was looked for in. -/
theorem keepsStarts_reportUnmatched : KeepsStarts reportUnmatched := by
  refine keepsStarts_bind (keepsStarts_onStream _) fun c =>
    keepsStarts_bind (keepsStarts_onStream _) fun ended => ?_
  split
  · exact keepsStarts_errorAt _ _ _ _
  · exact keepsStarts_errorAt _ _ _ _

/-- Text is injected into the line, not into another mode. -/
theorem keepsStarts_inject (text : String) (length : Nat) : KeepsStarts (inject text length) := by
  refine keepsStarts_get_bind fun t => ?_
  split
  · exact fun _ => .refl _
  · exact keepsStarts_discard (keepsStarts_onStream _)

/-- Pushing a token back does not switch modes. -/
theorem keepsStarts_pushBack (token : Token) : KeepsStarts (pushBack token) := by
  intro t
  unfold pushBack
  rw [Run.leaves_get_bind]
  split
  · exact .refl t
  · exact ⟨rfl, rfl, rfl, rfl⟩

/-- Opening a file does not switch modes. -/
theorem keepsStarts_openFile (name id complaint : String) (position : Option Position) :
    KeepsStarts (openFile name id complaint position) := by
  refine keepsStarts_get_bind fun t => ?_
  split
  · exact fun _ => .refl _
  · split
    · exact keepsStarts_errorAt _ _ _ _
    · exact fun _ => .refl _

/-- The included file is scanned in the mode of the file that includes it. -/
theorem keepsStarts_includeFile (name : String) (position : Option Position) (atEnd : Routine) :
    KeepsStarts (includeFile name position atEnd) := by
  refine keepsStarts_get_bind fun t => ?_
  dsimp only
  split
  · exact keepsStarts_errorAt _ _ _ _
  · exact keepsStarts_bind (keepsStarts_openFile _ _ _ _) fun _ _ => ⟨rfl, rfl, rfl, rfl⟩

-- ---------------------------------------------------------------------------
-- The modes that a routine leads through
-- ---------------------------------------------------------------------------

/-- The mode after a request, and then the modes after what it goes on with. -/
def modesOf (request : Run Scanner α) (rest : α → Scanner → List Mode) (t : Scanner) : List Mode :=
  let o := request.run t
  o.state.mode :: match o.result with
    | .ok a => rest a o.state
    | .error _ => []

/-- The modes that a routine leads a scanner through: the mode after each of its requests. -/
def course : Routine → Scanner → List Mode
  | .setMode mode rest => modesOf (setMode mode) fun _ => course rest
  | .pushMode mode rest => modesOf (pushMode mode) fun _ => course rest
  | .popMode rest => modesOf popMode fun _ => course rest
  | .inject text length rest => modesOf (inject text length) fun _ => course rest
  | .includeFile name position atEnd rest =>
    modesOf (includeFile name position atEnd) fun full => course (rest full)
  | .addMacro definition rest => modesOf (Run.modify (addMacro definition)) fun _ => course rest
  | .report severity id text position data rest =>
    modesOf (report severity id text position data) fun _ => course rest
  | .pushBack token rest => modesOf (pushBack token) fun _ => course rest
  | .note label rest => modesOf (Run.modify (noted label)) fun _ => course rest
  | .look rest => fun t => course (rest t.position t.mode) t
  | .fail _ => fun _ => []
  | .done _ _ => fun _ => []

/-- Whether a mode is left for another one on the way from a mode through others. -/
def departs (home : Mode) : Mode → List Mode → Bool
  | _, [] => false
  | mode, next :: rest => (mode == home && next != home) || departs home next rest

/-- A scanner that has gone through some modes. Where the default mode was left on the way, it has
kept the start of the token as the one in which that happened. -/
structure Through (t : Scanner) (modes : List Mode) (t' : Scanner) : Prop where
  mode : t'.mode = modes.getLastD t.mode
  defaultMode : t'.defaultMode = t.defaultMode
  tokenStart : t'.tokenStart = t.tokenStart
  modeStart : t'.modeStart = if departs t.defaultMode t.mode modes then
    t.tokenStart else t.modeStart

theorem Through.refl (t : Scanner) : Through t [] t := ⟨rfl, rfl, rfl, rfl⟩

/-- Who is not at home in the end was not there at first, or has left it on the way. -/
theorem away_or_departs {home mode : Mode} (h : modes.getLastD mode ≠ home) :
    mode ≠ home ∨ departs home mode modes = true := by
  induction modes generalizing mode with
  | nil => exact .inl h
  | cons next rest ih =>
    rw [List.getLastD_cons] at h
    by_cases hmode : mode = home
    · rw [departs, Bool.or_eq_true]
      exact .inr ((ih h).imp (fun hnext => by simp [hmode, hnext]) id)
    · exact .inl hmode

/-- Where a scanner ends up in another mode than the default mode, it was in another one at first,
or it has left the default mode on the way. -/
theorem Through.away_or_departs (h : Through t modes t') (haway : t'.mode ≠ t'.defaultMode) :
    t.mode ≠ t.defaultMode ∨ departs t.defaultMode t.mode modes = true := by
  rw [h.mode, h.defaultMode] at haway
  exact Scanner.away_or_departs haway

/-- What leaves the mode as it is leads through that mode. -/
theorem SameStarts.through (h : SameStarts t t') : Through t [t'.mode] t' := by
  refine ⟨rfl, h.defaultMode, h.tokenStart, ?_⟩
  have hstays : departs t.defaultMode t.mode [t'.mode] = false := by
    rw [h.mode]
    simp [departs]
  rw [hstays, if_neg Bool.false_ne_true, h.modeStart]

/-- After a first mode a scanner goes through others. -/
theorem Through.cons (h : Through t [t'.mode] t') (h' : Through t' modes t'') :
    Through t (t'.mode :: modes) t'' := by
  refine ⟨?_, h'.defaultMode.trans h.defaultMode, h'.tokenStart.trans h.tokenStart, ?_⟩
  · rw [h'.mode]
    cases modes <;> rfl
  · rw [h'.modeStart, h.modeStart, h.defaultMode, h.tokenStart]
    simp only [departs, Bool.or_false, Bool.or_eq_true]
    by_cases hrest : departs t.defaultMode t'.mode modes = true
    · rw [if_pos hrest, if_pos (.inr hrest)]
    · simp [hrest]

/-- Switching to a mode leads through it, and where that leaves the default mode, the start is
kept. -/
theorem through_setMode (mode : Mode) (t : Scanner) :
    (setMode mode).Leaves t fun _ t' => Through t [t'.mode] t' := by
  rw [leaves_setMode]
  split
  · refine ⟨rfl, rfl, rfl, ?_⟩
    simp [departs, switchedTo]
  · exact (SameStarts.refl t).through

/-- Pushing a mode is a switch. -/
theorem through_pushMode (mode : Mode) (t : Scanner) :
    (pushMode mode).Leaves t fun _ t' => Through t [t'.mode] t' := by
  rw [leaves_pushMode]
  split
  · refine ⟨rfl, rfl, rfl, ?_⟩
    simp [departs, switchedTo]
  · exact (SameStarts.refl t).through

/-- Popping a mode is a switch to the one below. -/
theorem through_popMode (t : Scanner) : popMode.Leaves t fun _ t' => Through t [t'.mode] t' := by
  rw [leaves_popMode]
  split
  · exact (SameStarts.refl t).through
  · split
    · refine ⟨rfl, rfl, rfl, ?_⟩
      simp [departs, switchedTo]
    · exact SameStarts.through ⟨rfl, rfl, rfl, rfl⟩

/-- What leaves the mode leads through it as a request. -/
theorem KeepsStarts.through {x : Run Scanner α} (hx : KeepsStarts x) (t : Scanner) :
    x.Leaves t fun _ t' => Through t [t'.mode] t' := (hx t).mono fun _ _ h => h.through

/-- A request leads through its own mode first, and then through those of what it goes on with. -/
theorem through_bind {request : Run Scanner α} {f : α → Run Scanner β}
    {rest : α → Scanner → List Mode}
    (hrequest : ∀ t, request.Leaves t fun _ t' => Through t [t'.mode] t')
    (hf : ∀ a t, (f a).Leaves t fun _ t' => Through t (rest a t) t') (t : Scanner) :
    (request >>= f).Leaves t fun _ t' => Through t (modesOf request rest t) t' := by
  have hfirst := hrequest t
  unfold Run.Leaves modesOf at *
  rw [Run.run_bind]
  rcases hrun : request.run t with ⟨a | fault, t₁, trace⟩
  · rw [hrun] at hfirst
    exact hfirst
  · rw [hrun] at hfirst
    exact hfirst.cons (hf _ t₁)

/-- **A routine leads through its course.** -/
theorem perform_through (routine : Routine) (t : Scanner) :
    (perform routine).Leaves t fun _ t' => Through t (course routine t) t' := by
  induction routine generalizing t with
  | setMode mode rest ih => exact through_bind (through_setMode mode) (fun _ => ih) t
  | pushMode mode rest ih => exact through_bind (through_pushMode mode) (fun _ => ih) t
  | popMode rest ih => exact through_bind through_popMode (fun _ => ih) t
  | inject text length rest ih =>
    exact through_bind (keepsStarts_inject text length).through (fun _ => ih) t
  | includeFile name position atEnd rest _ ih =>
    exact through_bind (keepsStarts_includeFile name position atEnd).through ih t
  | addMacro definition rest ih =>
    have hadd : KeepsStarts (Run.modify (addMacro definition)) :=
      keepsStarts_modify fun _ => ⟨rfl, rfl, rfl, rfl⟩
    exact through_bind hadd.through (fun _ => ih) t
  | report severity id text position data rest ih =>
    exact through_bind (keepsStarts_report severity id text position data).through (fun _ => ih) t
  | pushBack token rest ih =>
    exact through_bind (keepsStarts_pushBack token).through (fun _ => ih) t
  | note label rest ih =>
    have hnote : KeepsStarts (Run.modify (noted label)) :=
      keepsStarts_modify fun _ => ⟨rfl, rfl, rfl, rfl⟩
    exact through_bind hnote.through (fun _ => ih) t
  | look rest ih => exact Run.leaves_get_bind.mpr (ih _ _ t)
  | fail fault => exact .refl t
  | done kind value => exact .refl t

-- ---------------------------------------------------------------------------
-- The modes of a round
-- ---------------------------------------------------------------------------

/-- The start of the token that is scanned by a round, if one is: the one scanned before is still
the last one at the end of a file. -/
def begunBy (t : Scanner) (begun : Option Position) : Option Position :=
  match t.current?.bind Stream.upcoming? with
  | some s => some (t.onto s).position
  | none => begun

/-- The routine that a round runs when it scans at a cursor, and the scanner that it is run on. -/
def tokenRoutine? (t : Scanner) (s : Stream) (c : Cursor) : Option (Routine × Scanner) :=
  match plan t c with
  | .token p m => p.routine.map fun routine => (routine m,
    t.noting.onto { s with cursor := some (c.seek m.stop) })
  | _ => none

/-- The routine that is run at the end of an included file, and the scanner that it is run on. -/
def fileRoutine? (t : Scanner) : Option (Routine × Scanner) :=
  match t.inputs with
  | done :: parent :: below =>
    some (done.atEnd,
      { t with inputs := { parent with saved := none } :: below, pending := parent.saved })
  | _ => none

/-- It does not matter where the file stands that is done. -/
theorem fileRoutine?_onto (t : Scanner) (s : Stream) :
    fileRoutine? (t.onto s) = fileRoutine? t := by
  unfold fileRoutine? onto
  cases t.inputs with
  | nil => rfl
  | cons done rest => cases rest <;> rfl

/-- The routine that a round runs, if it runs one, and the scanner that it is run on. At the end of
a file there is none in another mode than the default mode. -/
def roundRoutine? (t : Scanner) : Option (Routine × Scanner) :=
  match t.current?.bind Stream.upcoming? with
  | some s => s.cursor.bind fun c => tokenRoutine? (t.onto s) s c
  | none => if t.mode = t.defaultMode then fileRoutine? t else none

/-- The modes that a routine leads through, if one is run. -/
def modesRun : Option (Routine × Scanner) → List Mode
  | some (routine, t) => course routine t
  | none => []

/-- Where it is no request, it leads through no mode at all. -/
theorem SameStarts.nowhere (h : SameStarts t t') : Through t [] t' :=
  ⟨h.mode, h.defaultMode, h.tokenStart, h.modeStart⟩

/-- Only what stays behind counts. -/
theorem Through.of_sameStarts (h : SameStarts t t') (h' : Through t' modes t'') :
    Through t modes t'' := by
  refine ⟨?_, h'.defaultMode.trans h.defaultMode, h'.tokenStart.trans h.tokenStart, ?_⟩
  · rw [h'.mode, h.mode]
  · rw [h'.modeStart, h.defaultMode, h.mode, h.tokenStart, h.modeStart]

/-- **A token.** Scanning at the cursor leads through the modes of the routine of the pattern that
matches. -/
theorem scanAtCursor_through (h : t.current? = some s) (hc : s.cursor = some c) :
    scanAtCursor.Leaves t fun _ t' => Through t.noting (modesRun (tokenRoutine? t s c)) t' := by
  unfold tokenRoutine?
  refine scanAtCursor_leaves_of h hc (fun hplan => ?_) (fun start stop hplan => ?_)
    (fun p m hplan => ?_) fun hplan => ?_
  all_goals rw [hplan]
  · exact (keepsStarts_replaceCall _).mono fun _ _ h => h.nowhere
  · exact (keepsStarts_replaceCallAt _ _ _).mono fun _ _ h =>
      SameStarts.nowhere ⟨h.1, h.2, h.3, h.4⟩
  · unfold produce
    dsimp only
    cases p.routine with
    | none => exact ⟨rfl, rfl, rfl, rfl⟩
    | some routine =>
      have hthere : SameStarts t.noting (t.noting.onto { s with cursor := some (c.seek m.stop) }) :=
        ⟨rfl, rfl, rfl, rfl⟩
      exact (perform_through (routine m) _).bind (fun made t₁ hr => .of_sameStarts hthere hr)
        fun fault t₁ hr => .of_sameStarts hthere hr
  · exact (keepsStarts_reportUnmatched _).mono fun _ _ h => h.nowhere

/-- **The end of a file.** It leads through the modes of the routine left for it, in the default
mode only. -/
theorem endOfInput_through (t : Scanner) : endOfInput.Leaves t fun _ t' =>
    Through t (modesRun (if t.mode = t.defaultMode then fileRoutine? t else none)) t' := by
  unfold endOfInput fileRoutine?
  rw [Run.leaves_get_bind]
  by_cases hmode : t.mode = t.defaultMode
  · rw [if_neg (by simp [hmode]), if_pos hmode]
    cases hinputs : t.inputs with
    | nil => exact ⟨rfl, rfl, rfl, rfl⟩
    | cons done rest =>
      cases rest with
      | nil => exact ⟨rfl, rfl, rfl, rfl⟩
      | cons parent below =>
        have hbelow : SameStarts t
            { t with inputs := { parent with saved := none } :: below, pending := parent.saved } :=
          ⟨rfl, rfl, rfl, rfl⟩
        rw [Run.leaves_emit_bind, Run.leaves_bind, Run.leaves_set, Run.continues_ok]
        have hperforms : (discard (perform done.atEnd)).Leaves _ fun _ t' => Through _ _ t' :=
          Run.leaves_discard.mpr (perform_through done.atEnd
            { t with inputs := { parent with saved := none } :: below, pending := parent.saved })
        refine hperforms.bind (fun _ t₁ hr => ?_) fun _ _ hr => .of_sameStarts hbelow hr
        rw [Run.leaves_get_bind]
        exact .of_sameStarts hbelow ⟨hr.mode, hr.defaultMode, hr.tokenStart, hr.modeStart⟩
  · rw [if_pos (by simp [hmode]), if_neg hmode]
    exact ⟨rfl, rfl, rfl, rfl⟩

/-- **A round** leads through the modes of the routine that it runs, if it runs one, from the start
of its token on. -/
theorem scanRound_through (hopen : ∀ s, t.current? = some s → s.isClosed = false) :
    scanRound.Leaves t fun _ t' =>
      Through { t with tokenStart := begunBy t t.tokenStart } (modesRun (roundRoutine? t)) t' := by
  unfold begunBy roundRoutine?
  cases hcurrent : t.current? with
  | none =>
    -- without an input there is nothing to scan
    unfold scanRound
    rw [Run.leaves_bind, leaves_onStream_of_none hcurrent]
    have hnone : fileRoutine? t = none := by
      have hinputs : t.inputs = [] := inputs_eq_nil hcurrent
      simp only [fileRoutine?, hinputs]
    simp only [Option.bind_none, hnone, ite_self]
    exact ⟨rfl, rfl, rfl, rfl⟩
  | some s =>
    rw [scanRound_leaves hcurrent (hopen s hcurrent)]
    cases hup : s.upcoming? with
    | none =>
      simp only [Option.bind_some, hup]
      have hend := endOfInput_through (t.onto { s with cursor := none })
      rw [fileRoutine?_onto] at hend
      have hthere : SameStarts t (t.onto { s with cursor := none }) := ⟨rfl, rfl, rfl, rfl⟩
      exact hend.mono fun _ _ hr => .of_sameStarts hthere hr
    | some s' =>
      simp only [Option.bind_some, hup]
      obtain ⟨s₀, rfl, -, c, hc⟩ := Stream.upcoming?_tidied hup
      have hc : s₀.cleanup.cursor = some c := hc
      rw [hc, Option.bind_some]
      have hscan := scanAtCursor_through (current?_onto hcurrent s₀.cleanup) hc
      exact hscan.mono fun _ _ hr => ⟨hr.mode, hr.defaultMode, hr.tokenStart, hr.modeStart⟩

end Scanner

end GrammarEngine
