import GrammarEngine.Proofs.Laws
import GrammarEngine.Proofs.Scanner.Local
import GrammarEngine.Proofs.SideBySide

/-!
# What no operation on a scanner does

Whatever a scanner is asked to do, it never looks at the messages and notes of the past, and it
leaves much of what it is as it is. What it leaves is told by a regime: a property of scanners that
only depends on the patterns, on the token pushed back, and on the routines left for the ends of
files, together with the licence to push tokens back. One induction over what routines ask for, and
one lemma for each part of scanning, show that all operations stay within their regime (`Governs`):
from a scanner, and from the same one with a past, they come to the same, and keep the property.
Under a regime without licence no token is pushed back a second time, since none is pushed back.

Main results:

* `governs_perform` — routines stay within a regime.
* `governs_scanAtCursor`, `governs_next` — so does scanning.
* `Regime.Governs.leaves` — what a run leaves that stays within a regime.
-/

namespace GrammarEngine

open Run

/-- A fault other than that of pushing a second token back. -/
def Fault.IsMild : Fault → Prop
  | .secondPushBack _ _ => False
  | _ => True

/-- A result that is not the fault of pushing a second token back. -/
def Harmless {α : Type} (result : Except Fault α) : Prop :=
  ∀ fault, result = .error fault → fault.IsMild

/-- Pushing a second token back is not among the plain faults. -/
theorem Fault.IsPlain.isMild {fault : Fault} (h : fault.IsPlain) : fault.IsMild := by
  cases fault with
  | secondPushBack => exact h.elim
  | _ => trivial

/-- Results that only fail plainly do no harm. -/
theorem Only.harmless {α : Type} {result : Except Fault α}
    (h : Only Fault.IsPlain result) : Harmless result :=
  fun fault hfault => (h fault hfault).isMild

/-- A result that is no fault does no harm. -/
theorem harmless_ok {α : Type} (a : α) : Harmless (.ok a) := only_ok a

/-- All that a routine may ask for; tokens are pushed back, or the fault of doing so raised, with a
licence only. -/
def Routine.Within (licence : Prop) : Routine → Prop
  | .setMode _ rest | .pushMode _ rest | .popMode rest | .inject _ _ rest | .addMacro _ rest
  | .report _ _ _ _ _ rest | .note _ rest => rest.Within licence
  | .includeFile _ _ atEnd rest => atEnd.Within licence ∧ ∀ full, (rest full).Within licence
  | .pushBack _ rest => licence ∧ rest.Within licence
  | .look rest => ∀ position mode, (rest position mode).Within licence
  | .fail fault => licence ∨ fault.IsMild
  | .done _ _ => True

/-- With a licence all is allowed. -/
theorem Routine.within_of_licence {licence : Prop} (h : licence) (routine : Routine) :
    routine.Within licence := by
  induction routine with
  | setMode _ _ ih | pushMode _ _ ih | popMode _ ih | inject _ _ _ ih | addMacro _ _ ih
  | report _ _ _ _ _ _ ih | note _ _ ih => exact ih
  | includeFile _ _ _ _ ihEnd ih => exact ⟨ihEnd, ih⟩
  | pushBack _ _ ih => exact ⟨h, ih⟩
  | look _ ih => exact ih
  | fail _ => exact .inl h
  | done _ _ => trivial

/-- What was reported and noted before. -/
structure Past where
  messages : List Message
  errors : Nat
  notes : List Note

/-- A log with an earlier part. -/
def Past.onLog (past : Past) (log : MessageLog) : MessageLog :=
  { log with messages := past.messages ++ log.messages, errors := past.errors + log.errors }

/-- A scanner with a past. -/
def Past.onScanner (past : Past) (s : Scanner) : Scanner :=
  { s with messages := past.onLog s.messages, notes := past.notes ++ s.notes }

@[simp] theorem Past.onScanner_lexicon (past : Past) (s : Scanner) :
    (past.onScanner s).lexicon = s.lexicon := rfl

@[simp] theorem Past.onScanner_mode (past : Past) (s : Scanner) :
    (past.onScanner s).mode = s.mode := rfl

@[simp] theorem Past.onScanner_defaultMode (past : Past) (s : Scanner) :
    (past.onScanner s).defaultMode = s.defaultMode := rfl

@[simp] theorem Past.onScanner_inputs (past : Past) (s : Scanner) :
    (past.onScanner s).inputs = s.inputs := rfl

@[simp] theorem Past.onScanner_pending (past : Past) (s : Scanner) :
    (past.onScanner s).pending = s.pending := rfl

@[simp] theorem Past.onScanner_ended (past : Past) (s : Scanner) :
    (past.onScanner s).ended = s.ended := rfl

/-- A log and the same log with a past. -/
def Past.Precedes (past : Past) (log later : MessageLog) : Prop := later = past.onLog log

/-- A scanner goes on with a file, and keeps the token pushed back for afterwards. -/
def Scanner.including (s : Scanner) (stream : Stream) (atEnd : Routine) : Scanner :=
  let below := match s.inputs with
    | [] => []
    | input :: rest => { input with saved := s.pending } :: rest
  { s with inputs := { stream := stream, atEnd := atEnd } :: below, pending := none }

/-- Two scanners with the same patterns, token pushed back, and routines left for the
ends of files. -/
structure Scanner.SameStock (s t : Scanner) : Prop where
  lexicon : t.lexicon = s.lexicon
  defaultMode : t.defaultMode = s.defaultMode
  pending : t.pending = s.pending
  atEnds : t.inputs.map Input.atEnd = s.inputs.map Input.atEnd

/-- A property of scanners that operations keep, and whether they may push tokens back. -/
structure Regime where
  licence : Prop
  Holds : Scanner → Prop
  of_sameStock : ∀ {s t : Scanner}, Holds s → s.SameStock t → Holds t
  included : ∀ {s : Scanner} {stream : Stream} {atEnd : Routine}, Holds s → atEnd.Within licence →
    Holds (s.including stream atEnd)
  pushedBack : ∀ {s : Scanner} {token : Token}, licence → Holds s →
    Holds { s with pending := some token }
  routines : ∀ {s : Scanner}, Holds s → ∀ p ∈ (s.lexicon.patterns? s.mode).getD [], ∀ routine,
    p.routine = some routine → ∀ m, (routine m).Within licence

/-- A regime that goes on when a file is done: the token pushed back before the file comes back, and
is delivered. -/
structure Regime.Returning (R : Regime) : Prop where
  atEnds : ∀ {s : Scanner}, R.Holds s → ∀ input ∈ s.inputs, input.atEnd.Within R.licence
  resumed : ∀ {s : Scanner} {done parent : Input} {below : List Input}, R.Holds s →
    s.inputs = done :: parent :: below →
    R.Holds { s with inputs := { parent with saved := none } :: below, pending := parent.saved }
  delivered : ∀ {s : Scanner}, R.Holds s → R.Holds { s with pending := none }

/-- The faults that may come up under a regime. -/
def Regime.Allows (R : Regime) (fault : Fault) : Prop := R.licence ∨ fault.IsMild

/-- A scanner under a regime, and the same one with a past. -/
structure Regime.Later (R : Regime) (past : Past) (s t : Scanner) : Prop where
  holds : R.Holds s
  later : t = past.onScanner s

/-- A run stays within a regime: it does not look at the past and keeps it, and it keeps
the property. -/
def Regime.Governs {α : Type} (R : Regime) (past : Past) (x : Run Scanner α) : Prop :=
  Respects (R.Later past) R.Allows x

variable {α : Type} {R : Regime} {past : Past}

/-- A scanner is the same one without a past. -/
theorem Regime.later_self {s : Scanner} (h : R.Holds s) : R.Later ⟨[], 0, []⟩ s s :=
  ⟨h, by simp [Past.onScanner, Past.onLog]⟩

/-- What a run leaves that stays within a regime. -/
theorem Regime.Governs.leaves {x : Run Scanner α} {s : Scanner}
    (hx : R.Governs ⟨[], 0, []⟩ x) (h : R.Holds s) :
    x.Leaves s fun r t => R.Holds t ∧ ∀ fault, r = .error fault → R.Allows fault := by
  obtain ⟨-, -, hlater, hfaults⟩ := hx s s (R.later_self h)
  exact ⟨hlater.holds, hfaults⟩

-- ---------------------------------------------------------------------------
-- Messages and streams
-- ---------------------------------------------------------------------------

namespace MessageLog

/-- Recording a message and putting a past in front may come in either order. -/
theorem onLog_recorded (past : Past) (m : Message) (log : MessageLog) :
    (past.onLog log).recorded m = past.onLog (log.recorded m) := by
  unfold recorded Past.onLog
  split <;> simp [List.append_assoc, Nat.add_assoc]

/-- A message is recorded behind those of the past. -/
theorem respects_write (m : Message) : Respects past.Precedes Fault.IsMild (write m) := by
  rintro log _ rfl
  unfold write
  refine alongside_get_bind (alongside_set_bind ?_)
  have hlater : past.Precedes (log.recorded m) ((past.onLog log).recorded m) :=
    onLog_recorded past m log
  show Alongside _ _ (if log.console then emit (.reported m) else pure ()) _
    (if log.console then _ else _) _
  split
  · exact respects_emit _ _ _ hlater
  · exact alongside_pure () hlater

/-- The fault raised for a message is never that of a second token pushed back. -/
theorem isMild_of_fault? {log : MessageLog} {m : Message} {fault : Fault}
    (h : log.fault? m = some fault) : fault.IsMild := by
  rcases eq_of_fault? h with rfl | rfl
  all_goals exact trivial

/-- Adding a message to the log is recording it, and perhaps giving up. -/
theorem respects_add (m : Message) : Respects past.Precedes Fault.IsMild (add m) := by
  unfold add
  refine respects_bind (respects_write m) fun _ => respects_get ?_ fun log _ _ => ?_
  · rintro log _ rfl
    rfl
  · split
    · next fault hfault => exact respects_fail (isMild_of_fault? hfault)
    · exact respects_pure m

/-- An error is added to the log. -/
theorem respects_error (id text : String) (position : Option Position) (line : Option String)
    (data : Payload) (calls : List MacroCall) :
    Respects past.Precedes Fault.IsMild
      (error id text position line data calls : Run MessageLog α) := by
  unfold error
  exact respects_bind (respects_write _) fun _ => respects_fail trivial

end MessageLog

/-- Following a path on the disk fails plainly. -/
theorem Disk.only_follow (disk : Disk) (l : Location) (components : List String) :
    Only Fault.IsPlain (disk.follow l components) := by
  induction components generalizing l with
  | nil =>
    unfold follow
    split
    · exact only_ok _
    all_goals exact only_error trivial
  | cons component rest ih =>
    unfold follow
    split
    · exact only_error trivial
    · exact ih _
    · exact only_error trivial

/-- So does reading a file. -/
theorem Disk.only_read (disk : Disk) (name : String) : Only Fault.IsPlain (disk.read name) := by
  unfold read
  split
  · exact only_error trivial
  · split
    · exact only_error trivial
    · refine only_bind (disk.only_follow _ _) fun content => ?_
      split
      · exact only_ok _
      · split
        · exact only_ok _
        · exact only_error trivial

namespace Stream

/-- And so does making a stream of a file. -/
theorem only_ofFile? (disk : Disk) (name : String) : Only Fault.IsPlain (ofFile? disk name) :=
  only_bind (disk.only_read name) fun _ => only_ok _

/-- The cursor has to be there. -/
theorem respects_theCursor : Respects Eq Fault.IsPlain theCursor := by
  unfold theCursor
  refine respects_get ?_ fun s _ _ => respects_orFail _ trivial
  rintro s _ rfl
  rfl

/-- Taking the next line changes a stream only. -/
theorem respects_takeLine : Respects Eq Fault.IsPlain takeLine := by
  rintro s _ rfl
  unfold takeLine
  refine alongside_get_bind ?_
  split
  · exact alongside_fail trivial rfl
  · exact alongside_set_bind (alongside_pure _ rfl)

/-- Going on to the next line, if the current one is used up. -/
theorem respects_readyNextLine : Respects Eq Fault.IsPlain readyNextLine := by
  unfold readyNextLine
  refine respects_get ?_ fun s _ _ => ?_
  · rintro s _ rfl
    rfl
  · split
    · exact respects_pure _
    · refine respects_bind respects_takeLine fun line => ?_
      split
      all_goals exact respects_bind (respects_modify fun _ _ h => h ▸ rfl) fun _ => respects_pure _

/-- Appending the next line to the current one. -/
theorem respects_appendNextLine : Respects Eq Fault.IsPlain appendNextLine := by
  unfold appendNextLine
  refine respects_bind respects_theCursor fun c => respects_bind respects_takeLine fun line => ?_
  split
  · exact respects_pure _
  · exact respects_bind (respects_modify fun _ _ h => h ▸ rfl) fun _ => respects_pure _

/-- Whether all is read is asked of the stream. -/
theorem respects_isReadUp : Respects Eq Fault.IsPlain isReadUp := by
  unfold isReadUp
  refine respects_get ?_ fun s _ _ => ?_
  · rintro s _ rfl
    rfl
  · split
    · exact respects_fail trivial
    · exact respects_pure _

/-- Moving the cursor. -/
theorem respects_seek (pos : Nat) : Respects Eq Fault.IsPlain (seek pos) := by
  unfold seek
  exact respects_bind respects_theCursor fun c => respects_modify fun _ _ h => h ▸ rfl

/-- Injecting text at the cursor. -/
theorem respects_injectText (text : List Char) (length : Nat) :
    Respects Eq Fault.IsPlain (injectText text length) := by
  unfold injectText
  refine respects_bind respects_theCursor fun c => ?_
  exact respects_bind (respects_modify fun _ _ h => h ▸ rfl) fun _ => respects_pure _

/-- Injecting the text of a macro, if the calls are not nested too deeply. -/
theorem respects_injectMacro (definition : Macro) (args : List String) (text : String)
    (length maxDepth : Nat) :
    Respects Eq Fault.IsPlain (injectMacro definition args text length maxDepth) := by
  unfold injectMacro
  refine respects_get ?_ fun s _ _ => ?_
  · rintro s _ rfl
    rfl
  · split
    · exact respects_pure _
    · refine respects_bind (respects_injectText _ _) fun stop => ?_
      exact respects_bind (respects_modify fun _ _ h => h ▸ rfl) fun _ => respects_pure _

end Stream

namespace Scanner

variable {s t : Scanner}

-- ---------------------------------------------------------------------------
-- Between tokens
-- ---------------------------------------------------------------------------

/-- A change that leaves the stock and does not look at the past stays within every regime. -/
theorem governs_modify {f : Scanner → Scanner} (hstock : ∀ s : Scanner, s.SameStock (f s))
    (hpast : ∀ s, f (past.onScanner s) = past.onScanner (f s)) : R.Governs past (Run.modify f) := by
  refine respects_modify ?_
  rintro s _ ⟨hholds, rfl⟩
  exact ⟨R.of_sameStock hholds (hstock s), hpast s⟩

/-- Work on the message log stays within every regime, since the log is no part of the stock. -/
theorem governs_onMessages {work : Run MessageLog α}
    (h : Respects past.Precedes Fault.IsMild work) : R.Governs past (onMessages work) := by
  rintro s _ ⟨hholds, rfl⟩
  have hlog : Alongside past.Precedes R.Allows work s.messages work (past.onLog s.messages) :=
    (h _ _ rfl).mono (fun _ _ => id) fun _ => .inr
  refine alongside_zoom hlog ?_
  rintro log _ rfl
  exact ⟨R.of_sameStock hholds ⟨rfl, rfl, rfl, rfl⟩, rfl⟩

/-- Neither are the streams. -/
theorem governs_onStream {work : Run Stream α} (h : Respects Eq Fault.IsPlain work) :
    R.Governs past (onStream work) := by
  rintro s _ ⟨hholds, rfl⟩
  show Alongside _ _ (onStream work) s (onStream work) _
  cases hinputs : s.inputs with
  | nil =>
    have hfails : (onStream work).run (past.onScanner s) =
        ⟨.error .precondition, past.onScanner s, []⟩ :=
      onStream_run_nil hinputs
    constructor
    all_goals rw [onStream_run_nil hinputs]
    · rw [hfails]
    · rw [hfails]
    · rw [hfails]
      exact ⟨hholds, rfl⟩
    · exact fun fault hfault => .inr (Except.error.inj hfault ▸ trivial)
  | cons input below =>
    constructor
    all_goals rw [onStream_run hinputs]
    · rw [onStream_run (s := past.onScanner s) hinputs]
    · rw [onStream_run (s := past.onScanner s) hinputs]
    · rw [onStream_run (s := past.onScanner s) hinputs]
      refine ⟨R.of_sameStock hholds ⟨rfl, rfl, rfl, ?_⟩, rfl⟩
      rw [hinputs]
      rfl
    · exact fun fault hfault => .inr ((h _ _ rfl).faults fault hfault).isMild

/-- A report goes to the log, at the place of the cursor if no other is given. -/
theorem governs_report (severity : Severity) (id text : String) (position : Option Position)
    (data : Payload) : R.Governs past (report severity id text position data) := by
  unfold report
  refine respects_get ?_ fun s _ _ =>
    respects_discard (governs_onMessages (MessageLog.respects_add _))
  rintro s _ ⟨-, rfl⟩
  rfl

/-- An error at some position is reported, and is the fault that is raised. -/
theorem governs_errorAt (id text : String) (position : Option Position) (data : Payload) :
    R.Governs past (errorAt id text position data : Run Scanner α) := by
  unfold errorAt
  refine respects_get ?_ fun s _ _ => governs_onMessages (MessageLog.respects_error _ _ _ _ _ _)
  rintro s _ ⟨-, rfl⟩
  rfl

/-- An error at the cursor is one at its position. -/
theorem governs_error (id text : String) : R.Governs past (error id text : Run Scanner α) :=
  governs_errorAt id text none .null

/-- Modes are set and left without a look at the past. -/
theorem governs_setMode (mode : Mode) : R.Governs past (setMode mode) := by
  rintro s _ ⟨hholds, rfl⟩
  unfold setMode
  refine alongside_get_bind ?_
  rw [Past.onScanner_lexicon]
  split
  · exact alongside_fail (.inr trivial) ⟨hholds, rfl⟩
  · exact alongside_set ⟨R.of_sameStock hholds ⟨rfl, rfl, rfl, rfl⟩, rfl⟩

/-- A mode is pushed on those there are. -/
theorem governs_pushMode (mode : Mode) : R.Governs past (pushMode mode) := by
  unfold pushMode
  refine respects_get ?_ fun s _ _ => respects_bind (governs_setMode mode) fun _ => ?_
  · rintro s _ ⟨-, rfl⟩
    rfl
  · exact governs_modify (fun _ => ⟨rfl, rfl, rfl, rfl⟩) fun _ => rfl

/-- A mode is popped, if there is one. -/
theorem governs_popMode : R.Governs past popMode := by
  unfold popMode
  refine respects_get ?_ fun s _ _ => ?_
  · rintro s _ ⟨-, rfl⟩
    rfl
  · split
    · exact respects_fail (.inr trivial)
    · exact respects_bind (governs_modify (fun _ => ⟨rfl, rfl, rfl, rfl⟩) fun _ => rfl) fun _ =>
        governs_setMode _

/-- Only with a licence are tokens pushed back. -/
theorem governs_pushBack (hlicence : R.licence) (token : Token) :
    R.Governs past (pushBack token) := by
  rintro s _ ⟨hholds, rfl⟩
  unfold pushBack
  refine alongside_get_bind ?_
  rw [Past.onScanner_pending]
  split
  · exact alongside_fail (.inl hlicence) ⟨hholds, rfl⟩
  · exact alongside_set ⟨R.pushedBack hlicence hholds, rfl⟩

/-- Opening a file reports what is wrong with it, or gives its stream. -/
theorem governs_openFile (name id complaint : String) (position : Option Position) :
    R.Governs past (openFile name id complaint position) := by
  unfold openFile
  refine respects_get ?_ fun s _ _ => ?_
  · rintro s _ ⟨-, rfl⟩
    rfl
  · split
    · exact respects_bind (respects_emit _) fun _ => respects_pure _
    · next fault hfile =>
      split
      · exact governs_errorAt _ _ _ _
      · exact respects_fail (.inr ((Stream.only_ofFile? _ _).harmless fault hfile))

/-- **Including a file.** What the routine for its end may ask for is then among the stock. -/
theorem governs_includeFile (name : String) (position : Option Position) {atEnd : Routine}
    (hatEnd : atEnd.Within R.licence) : R.Governs past (includeFile name position atEnd) := by
  unfold includeFile
  refine respects_get ?_ fun s _ _ => ?_
  · rintro s _ ⟨-, rfl⟩
    rfl
  · dsimp only
    split
    · exact governs_errorAt _ _ _ _
    · refine respects_bind (governs_openFile _ _ _ _) fun stream => ?_
      refine respects_bind (respects_modify ?_) fun _ => respects_pure _
      rintro s _ ⟨hholds, rfl⟩
      exact ⟨R.included hholds hatEnd, rfl⟩

/-- Injecting text is work on the stream. -/
theorem governs_inject (text : String) (length : Nat) : R.Governs past (inject text length) := by
  unfold inject
  refine respects_get ?_ fun s _ _ => ?_
  · rintro s _ ⟨-, rfl⟩
    rfl
  · split
    · exact respects_fail (.inr trivial)
    · exact respects_discard (governs_onStream (Stream.respects_injectText _ _))

/-- A macro is added to those there are. -/
theorem governs_addMacro (definition : Macro) : R.Governs past (Run.modify (addMacro definition)) :=
  governs_modify (fun _ => ⟨rfl, rfl, rfl, rfl⟩) fun _ => rfl

/-- A note is put down behind those of the past. -/
theorem governs_noted (label : String) : R.Governs past (Run.modify (noted label)) := by
  refine governs_modify (fun _ => ⟨rfl, rfl, rfl, rfl⟩) fun s => ?_
  show ({ past.onScanner s with notes := past.notes ++ s.notes ++ _ } : Scanner) = _
  rw [List.append_assoc]
  rfl

/-- **Routines** stay within a regime, if they ask for what it allows. -/
theorem governs_perform {routine : Routine} (h : routine.Within R.licence) :
    R.Governs past (perform routine) := by
  induction routine with
  | setMode mode rest ih => exact respects_bind (governs_setMode mode) fun _ => ih h
  | pushMode mode rest ih => exact respects_bind (governs_pushMode mode) fun _ => ih h
  | popMode rest ih => exact respects_bind governs_popMode fun _ => ih h
  | inject text length rest ih => exact respects_bind (governs_inject text length) fun _ => ih h
  | includeFile name position atEnd rest _ ih =>
    exact respects_bind (governs_includeFile name position h.1) fun full => ih full (h.2 full)
  | addMacro definition rest ih => exact respects_bind (governs_addMacro definition) fun _ => ih h
  | report severity id text position data rest ih =>
    exact respects_bind (governs_report severity id text position data) fun _ => ih h
  | pushBack token rest ih => exact respects_bind (governs_pushBack h.1 token) fun _ => ih h.2
  | note label rest ih => exact respects_bind (governs_noted label) fun _ => ih h
  | look rest ih =>
    refine respects_get ?_ fun s _ _ => ih s.position s.mode (h s.position s.mode)
    rintro s _ ⟨-, rfl⟩
    rfl
  | fail fault => exact respects_fail h
  | done kind value => exact respects_pure _

-- ---------------------------------------------------------------------------
-- Scanning
-- ---------------------------------------------------------------------------

/-- Resolving a macro reports an error or gives a text. -/
theorem governs_resolve (table : MacroTable) (args : List String) (position : Option Position) :
    R.Governs past (table.resolve args position) := by
  unfold MacroTable.resolve
  refine respects_bind (respects_orFail _ (.inr trivial)) fun written => ?_
  dsimp only
  split
  · exact respects_pure _
  · refine respects_bind (respects_orFail _ (.inr trivial)) fun text => ?_
    exact respects_bind (respects_emit _) fun _ => respects_pure _

/-- Expanding a call injects the text of its macro. -/
theorem governs_expandCall (call : Call) : R.Governs past (expandCall call) := by
  unfold expandCall
  refine respects_get ?_ fun s _ _ => respects_bind (governs_resolve _ _ _) fun resolution => ?_
  · rintro s _ ⟨-, rfl⟩
    rfl
  · cases resolution with
    | undefined => exact governs_error _ _
    | missing => exact respects_discard (governs_onStream (Stream.respects_injectText _ _))
    | expanded definition text =>
      dsimp only
      split
      · exact respects_discard (governs_onStream (Stream.respects_injectText _ _))
      · refine respects_bind (governs_onStream (Stream.respects_injectMacro _ _ _ _ _)) fun done =>
          ?_
        cases done with
        | true => exact respects_pure _
        | false => exact governs_error _ _

/-- The cursor of the current input. -/
theorem governs_theCursor : R.Governs past (onStream Stream.theCursor) :=
  governs_onStream Stream.respects_theCursor

/-- Moving the cursor of the current input. -/
theorem governs_seek (pos : Nat) : R.Governs past (onStream (Stream.seek pos)) :=
  governs_onStream (Stream.respects_seek pos)

/-- Reading a call goes on to another line, or it is done, or an error is reported. -/
theorem governs_readCallRound : R.Governs past readCallRound := by
  unfold readCallRound
  refine respects_bind governs_theCursor fun c => ?_
  split
  · exact respects_bind (governs_seek _) fun _ => respects_pure _
  · split
    · exact governs_error _ _
    · refine respects_bind (governs_onStream Stream.respects_appendNextLine) fun more => ?_
      cases more with
      | true => exact respects_pure _
      | false => exact governs_error _ _

/-- Reading a call is going through its rounds. -/
theorem governs_readCall : R.Governs past readCall := by
  unfold readCall
  refine respects_get ?_ fun s _ _ => respects_repeated (.inr trivial) governs_readCallRound _
  rintro s _ ⟨-, rfl⟩
  rfl

/-- A call at the cursor is read and expanded. -/
theorem governs_expandAtCursor : R.Governs past expandAtCursor := by
  unfold expandAtCursor
  refine respects_get ?_ fun s _ _ => ?_
  · rintro s _ ⟨-, rfl⟩
    rfl
  · split
    · split
      · exact respects_bind governs_readCall fun call =>
          respects_bind (governs_expandCall call) fun _ => respects_pure _
      · exact respects_pure _
    · exact respects_pure _

/-- A call inside a match is expanded with the cursor moved there and back. -/
theorem governs_expandInMatch (start : Nat) (m : Match) :
    R.Governs past (expandInMatch start m) := by
  unfold expandInMatch
  refine respects_get ?_ fun s _ _ => ?_
  · rintro s _ ⟨-, rfl⟩
    rfl
  · split
    · exact respects_pure _
    · refine respects_bind governs_theCursor fun c => ?_
      dsimp only
      split
      · exact respects_pure _
      · refine respects_bind (governs_seek _) fun _ => ?_
        refine respects_bind (respects_discard governs_expandAtCursor) fun _ => ?_
        exact respects_bind (governs_seek _) fun _ => respects_pure _

/-- What no pattern matches is reported. -/
theorem governs_reportUnmatched : R.Governs past reportUnmatched := by
  unfold reportUnmatched
  refine respects_bind governs_theCursor fun c =>
    respects_bind (governs_onStream Stream.respects_isReadUp) fun _ => ?_
  split
  · exact governs_error _ _
  · exact governs_error _ _

/-- **Scanning.** Expanding calls, matching a pattern and performing its routine all stay within the
regime. -/
theorem governs_scanAtCursor : R.Governs past scanAtCursor := by
  unfold scanAtCursor
  refine respects_bind (governs_modify (fun _ => ⟨rfl, rfl, rfl, rfl⟩) fun _ => rfl) fun _ => ?_
  refine respects_get ?_ fun s _ _ => ?_
  · rintro s _ ⟨-, rfl⟩
    rfl
  refine respects_bind governs_expandAtCursor fun expanded => ?_
  cases expanded with
  | true => exact respects_pure _
  | false =>
    refine respects_get ?_ fun s _ hs => respects_bind governs_theCursor fun c => ?_
    · rintro s _ ⟨-, rfl⟩
      rfl
    split
    · exact respects_bind governs_reportUnmatched fun _ => respects_pure _
    · next p m hmatch =>
      refine respects_bind (governs_seek _) fun _ => ?_
      -- what is made of the match, whether or not calls in it are looked for
      dsimp only
      split
      all_goals
        refine respects_bind (by first | exact respects_pure _ | exact governs_expandInMatch _ _)
          fun expanded => ?_
        split
        · exact respects_pure _
        · split
          · next routine hroutine =>
            have hwithin := R.routines hs.holds p (mem_of_firstMatch? hmatch) routine hroutine m
            exact respects_bind (governs_perform hwithin) fun _ => respects_pure _
          · exact respects_bind (respects_pure _) fun _ => respects_pure _

/-- The end of an input performs the routine that was left for it, which the regime knows. -/
theorem governs_endOfInput (hreturning : R.Returning) : R.Governs past endOfInput := by
  rintro s _ ⟨hholds, rfl⟩
  have hlater : R.Later past s (past.onScanner s) := ⟨hholds, rfl⟩
  unfold endOfInput
  refine alongside_get_bind ?_
  rw [Past.onScanner_mode, Past.onScanner_defaultMode, Past.onScanner_inputs]
  split
  · exact alongside_set_bind
      (governs_error _ _ _ _ ⟨R.of_sameStock hholds ⟨rfl, rfl, rfl, rfl⟩, rfl⟩)
  · split
    · next done parent below hinputs =>
      have hatEnd := hreturning.atEnds hholds done (hinputs ▸ List.mem_cons_self)
      refine (respects_emit _ _ _ hlater).bind fun _ _ _ _ => alongside_set_bind ?_
      refine respects_bind (respects_discard (governs_perform hatEnd)) (fun _ => ?_) _ _
        ⟨hreturning.resumed hholds hinputs, rfl⟩
      refine respects_get ?_ fun t _ _ =>
        respects_bind (respects_modify ?_) fun _ => respects_pure _
      · rintro t _ ⟨-, rfl⟩
        rfl
      · rintro t _ ⟨hholds', rfl⟩
        exact ⟨hreturning.delivered hholds', rfl⟩
    · exact alongside_set_bind (alongside_pure _ ⟨R.of_sameStock hholds ⟨rfl, rfl, rfl, rfl⟩, rfl⟩)

/-- Forgetting finished calls is work on the stream. -/
theorem governs_cleanup : R.Governs past (onStream (Run.modify Stream.cleanup)) :=
  governs_onStream (respects_modify fun _ _ h => h ▸ rfl)

/-- One round of scanning scans at the cursor, or deals with the end of an input. -/
theorem governs_scanRound (hreturning : R.Returning) : R.Governs past scanRound := by
  unfold scanRound
  refine respects_bind (governs_onStream Stream.respects_readyNextLine) fun ready => ?_
  cases ready with
  | true => exact respects_bind governs_cleanup fun _ => governs_scanAtCursor
  | false => exact governs_endOfInput hreturning

/-- **Scanning** stays within a regime. -/
theorem governs_next (hreturning : R.Returning) (rounds : Nat) : R.Governs past (next rounds) := by
  rintro s _ ⟨hholds, rfl⟩
  have hlater : R.Later past s (past.onScanner s) := ⟨hholds, rfl⟩
  unfold next
  refine alongside_get_bind ?_
  rw [Past.onScanner_pending, Past.onScanner_ended]
  split
  · exact alongside_set_bind (alongside_pure _ ⟨hreturning.delivered hholds, rfl⟩)
  · exact alongside_pure _ hlater
  · rw [Past.onScanner_inputs]
    split
    · exact alongside_fail (.inr trivial) hlater
    · exact respects_repeated (.inr trivial) (governs_scanRound hreturning) rounds _ _ hlater

end Scanner

end GrammarEngine
