import GrammarEngine.Proofs.Scanner.Reopening
import GrammarEngine.Proofs.Telling

/-!
# Where a scanner turns to its message log

A scanner turns to its message log where it reports, and nowhere else. So a law of message logs is
one of scanners as well, if it lets pass what happens beside the log: reading, switching modes,
replacing calls, and faults that are not about the input.

Routines could raise a fault about the input without reporting it. Those that do not are candid. The
routines of a scanner are those of its patterns and those left for the ends of files, and an
operation may bring in new ones. As long as all of them are candid, a scanner keeps to the law.

Main results:

* `obeyed_perform` — candid routines.
* `obeyed_next` — scanning.
* `Candidly.obeyed` — any work that is put together from what a scanner does.
* `tells_carryOut` — an operation of a scanner raises what it records.
-/

namespace GrammarEngine

open Run

/-- A routine that raises no fault about the input without reporting it, and leaves none
behind that does. -/
def Routine.Candid : Routine → Prop
  | .setMode _ rest | .pushMode _ rest | .popMode rest | .inject _ _ rest | .addMacro _ rest
  | .report _ _ _ _ _ rest | .pushBack _ rest | .note _ rest => rest.Candid
  | .includeFile _ _ atEnd rest => atEnd.Candid ∧ ∀ full, (rest full).Candid
  | .look rest => ∀ position mode, (rest position mode).Candid
  | .fail fault => fault.report? = none
  | .done _ _ => True

/-- A pattern whose routine is candid, if it has one. -/
def TokenPattern.Candid (p : TokenPattern) : Prop :=
  ∀ routine, p.routine = some routine → ∀ m, (routine m).Candid

/-- Patterns with candid routines only. -/
def Lexicon.Candid (lexicon : Lexicon) : Prop := ∀ entry ∈ lexicon, ∀ p ∈ entry.2, p.Candid

/-- A pattern that is tried is candid if all are. -/
theorem Lexicon.Candid.of_mem {lexicon : Lexicon} {mode : Mode} {p : TokenPattern}
    (h : lexicon.Candid) (hp : p ∈ (lexicon.patterns? mode).getD []) : p.Candid := by
  cases hpatterns : lexicon.patterns? mode with
  | none =>
    rw [hpatterns] at hp
    cases hp
  | some patterns =>
    rw [hpatterns] at hp
    obtain ⟨before, after, hlexicon, -⟩ := List.lookup_eq_some_iff.mp hpatterns
    exact h (mode, patterns) (hlexicon ▸ List.mem_append_right _ List.mem_cons_self) p hp

/-- A candid pattern may be added. -/
theorem Lexicon.Candid.add {lexicon : Lexicon} {p : TokenPattern}
    (mode : Mode) (h : lexicon.Candid) (hp : p.Candid) : (lexicon.add mode p).Candid := by
  induction lexicon with
  | nil => exact List.forall_mem_singleton.mpr (List.forall_mem_singleton.mpr hp)
  | cons entry rest ih =>
    obtain ⟨m, patterns⟩ := entry
    obtain ⟨hfirst, hrest⟩ := List.forall_mem_cons.mp h
    unfold Lexicon.add
    split
    · refine List.forall_mem_cons.mpr ⟨?_, hrest⟩
      exact List.forall_mem_append.mpr ⟨hfirst, List.forall_mem_singleton.mpr hp⟩
    · exact List.forall_mem_cons.mpr ⟨hfirst, ih hrest⟩

namespace Scanner

/-- All routines of a scanner are candid. -/
structure Candid (s : Scanner) : Prop where
  lexicon : s.lexicon.Candid
  atEnds : ∀ input ∈ s.inputs, input.atEnd.Candid

/-- What a law of message logs says about scanners whose routines are candid. -/
def law (M : Law MessageLog) : Law Scanner where
  Holds s := s.Candid ∧ M.Holds s.messages
  Says s fault trace t := M.Says s.messages fault trace t.messages
  still s := M.still s.messages
  chain := M.chain

/-- A law of message logs that lets messages be recorded and raised, and lets pass what happens
beside the log. -/
structure Lawful (M : Law MessageLog) : Prop where
  records : M.Records
  beside : ∀ log fault trace, fault.bind Fault.report? = none → M.Says log fault trace log

/-- The law of recording what is raised lets pass what happens beside the log. -/
theorem lawful_reporting : Lawful MessageLog.reporting where
  records := MessageLog.records_reporting
  beside _ _ _ := .silent

/-- The law of recording what is raised, for scanners. -/
abbrev reporting : Law Scanner := law MessageLog.reporting

variable {α : Type} {M : Law MessageLog} {s t : Scanner}

/-- A change that brings in candid routines only and is no matter of the log. -/
theorem accords_change {f : Scanner → Scanner}
    (hs : (law M).Holds s) (hcandid : s.Candid → (f s).Candid)
    (hlog : (f s).messages = s.messages) : Accords (law M) (modify f) s := by
  refine accords_modify ⟨hcandid hs.1, ?_⟩ ?_
  · rw [hlog]
    exact hs.2
  · show M.Says s.messages none [] (f s).messages
    rw [hlog]
    exact M.still _

/-- A scanner that differs in candid routines only may be put in place. -/
theorem accords_put (hs : (law M).Holds s) (hcandid : s.Candid → t.Candid)
    (hlog : t.messages = s.messages) : Accords (law M) (set t) s := accords_change hs hcandid hlog

section Lawful

variable (hM : Lawful M)

include hM

/-- Plain faults happen beside the log, and so do events. -/
theorem lenient_of_lawful : M.Lenient where
  plain _ _ hplain := hM.beside _ _ _ hplain.report?_eq_none
  event _ _ _ := hM.beside _ _ _ rfl

/-- So the law of scanners is lenient, too. -/
theorem law_lenient : (law M).Lenient where
  plain _ _ hplain := hM.beside _ _ _ hplain.report?_eq_none
  event _ _ _ := hM.beside _ _ _ rfl

/-- A fault that is not about the input may be raised without being reported. -/
theorem accords_giveUp {fault : Fault} (hs : (law M).Holds s) (hfault : fault.report? = none) :
    Accords (law M) (fail fault : Run Scanner α) s :=
  accords_fail hs (hM.beside _ (some fault) _ hfault)

omit hM in
/-- Work on the message log keeps the law as it keeps the law of logs. -/
theorem obeyed_onMessages {work : Run MessageLog α} (h : M.Obeyed work) :
    (law M).Obeyed (onMessages work) := by
  intro s hs
  obtain ⟨hholds, htold⟩ := h s.messages hs.2
  exact ⟨⟨⟨hs.1.lexicon, hs.1.atEnds⟩, hholds⟩, htold⟩

/-- Work on the streams happens beside the log. -/
theorem obeyed_onStream {work : Run Stream α} (h : Respects Eq Fault.IsPlain work) :
    (law M).Obeyed (onStream work) := by
  intro s hs
  cases hinputs : s.inputs with
  | nil =>
    constructor <;> rw [onStream_run_nil hinputs]
    · exact hs
    · exact hM.beside _ _ _ rfl
  | cons input below =>
    have hatEnds := hs.1.atEnds
    rw [hinputs] at hatEnds
    constructor <;> rw [onStream_run hinputs]
    · exact ⟨⟨hs.1.lexicon, List.forall_mem_cons.mpr (List.forall_mem_cons.mp hatEnds)⟩, hs.2⟩
    · refine hM.beside _ _ _ ?_
      cases hresult : (work.run input.stream).result with
      | ok a => rfl
      | error fault => exact ((h _ _ rfl).faults fault hresult).report?_eq_none

-- ---------------------------------------------------------------------------
-- Between tokens
-- ---------------------------------------------------------------------------

/-- A report is recorded. -/
theorem obeyed_report (severity : Severity) (id text : String) (position : Option Position)
    (data : Payload) : (law M).Obeyed (report severity id text position data) := fun _ hs =>
  accords_get_bind (accords_discard (obeyed_onMessages (hM.records.add _) _ hs))

/-- An error is recorded, and then raised. -/
theorem obeyed_errorAt (id text : String) (position : Option Position) (data : Payload) :
    (law M).Obeyed (errorAt id text position data : Run Scanner α) := fun _ hs =>
  accords_get_bind (obeyed_onMessages (hM.records.error _ _ _ _ _ _) _ hs)

/-- An error at the cursor is one at its position. -/
theorem obeyed_error (id text : String) : (law M).Obeyed (error id text : Run Scanner α) :=
  obeyed_errorAt hM id text none .null

/-- A mode that there is not is refused with a fault of its own. -/
theorem obeyed_setMode (mode : Mode) : (law M).Obeyed (setMode mode) := by
  intro s hs
  unfold setMode
  refine accords_get_bind ?_
  split
  · exact accords_refuse (law_lenient hM) hs
  · exact accords_put hs (fun h => ⟨h.lexicon, h.atEnds⟩) rfl

/-- Pushing a mode remembers the one before, beside the log. -/
theorem obeyed_pushMode (mode : Mode) : (law M).Obeyed (pushMode mode) := fun s hs =>
  accords_get_bind ((obeyed_setMode hM mode s hs).bind fun _ _ ht _ =>
    accords_change ht (fun h => ⟨h.lexicon, h.atEnds⟩) rfl)

/-- With no mode to go back to, the fault is not about the input. -/
theorem obeyed_popMode : (law M).Obeyed popMode := by
  intro s hs
  unfold popMode
  refine accords_get_bind ?_
  split
  · exact accords_refuse (law_lenient hM) hs
  · refine (accords_change hs (fun h => ⟨h.lexicon, h.atEnds⟩) rfl).bind fun _ t ht _ => ?_
    exact obeyed_setMode hM _ t ht

/-- Pushing a second token back is a fault of the caller. -/
theorem obeyed_pushBack (token : Token) : (law M).Obeyed (pushBack token) := by
  intro s hs
  unfold pushBack
  refine accords_get_bind ?_
  split
  · exact accords_giveUp hM hs rfl
  · exact accords_put hs (fun h => ⟨h.lexicon, h.atEnds⟩) rfl

/-- A file that cannot be opened is reported. -/
theorem obeyed_openFile (name id complaint : String) (position : Option Position) :
    (law M).Obeyed (openFile name id complaint position) := by
  intro s hs
  unfold openFile
  refine accords_get_bind ?_
  split
  · exact (accords_emit (law_lenient hM) hs rfl).bind fun _ _ ht _ => accords_pure _ ht
  · next fault hfile =>
    split
    · exact obeyed_errorAt hM _ _ _ _ s hs
    · exact accords_giveUp hM hs (Stream.only_ofFile? _ _ fault hfile).report?_eq_none

/-- A scanner that is started reads a text or opens a file. -/
theorem obeyed_start (readsLabel : Bool) : (law M).Obeyed (start readsLabel) := by
  have hread (stream : Stream) :
      (law M).Obeyed (modify fun s : Scanner => { s with inputs := [{ stream := stream }] }) :=
        fun s hs =>
    accords_change hs (fun h => ⟨h.lexicon, List.forall_mem_singleton.mpr trivial⟩) rfl
  intro s hs
  unfold start
  refine Accords.bind (accords_change hs (fun h => ⟨h.lexicon, ?_⟩) rfl) fun _ t ht _ =>
    accords_get_bind ?_
  · exact fun _ hinput => (List.not_mem_nil hinput).elim
  dsimp only
  split
  · exact (accords_pure _ ht).bind fun stream u hu _ => hread stream u hu
  · exact (obeyed_openFile hM _ _ _ _ t ht).bind fun stream u hu _ => hread stream u hu

/-- A candid routine may be left for the end of a file. -/
theorem obeyed_includeFile (name : String) (position : Option Position) {atEnd : Routine}
    (hatEnd : atEnd.Candid) : (law M).Obeyed (includeFile name position atEnd) := by
  intro s hs
  unfold includeFile
  refine accords_get_bind ?_
  dsimp only
  split
  · exact obeyed_errorAt hM _ _ _ _ s hs
  · refine (obeyed_openFile hM _ _ _ _ s hs).bind fun stream t ht _ => ?_
    refine (accords_change ht (fun h => ⟨h.lexicon, ?_⟩) rfl).bind fun _ _ hu _ => accords_pure _ hu
    refine List.forall_mem_cons.mpr ⟨hatEnd, ?_⟩
    have hatEnds := h.atEnds
    split
    · exact fun _ hinput => nomatch hinput
    · next input rest hinputs =>
      rw [hinputs] at hatEnds
      exact List.forall_mem_cons.mpr (List.forall_mem_cons.mp hatEnds)

/-- Injecting text happens beside the log. -/
theorem obeyed_inject (text : String) (length : Nat) : (law M).Obeyed (inject text length) := by
  intro s hs
  unfold inject
  refine accords_get_bind ?_
  split
  · exact accords_refuse (law_lenient hM) hs
  · exact accords_discard (obeyed_onStream hM (Stream.respects_injectText _ _) s hs)

/-- **Candid routines.** -/
theorem obeyed_perform {routine : Routine} (h : routine.Candid) :
    (law M).Obeyed (perform routine) := by
  induction routine with
  | setMode mode rest ih =>
    exact fun s hs => (obeyed_setMode hM mode s hs).bind fun _ t ht _ => ih h t ht
  | pushMode mode rest ih =>
    exact fun s hs => (obeyed_pushMode hM mode s hs).bind fun _ t ht _ => ih h t ht
  | popMode rest ih => exact fun s hs => (obeyed_popMode hM s hs).bind fun _ t ht _ => ih h t ht
  | inject text length rest ih =>
    exact fun s hs => (obeyed_inject hM text length s hs).bind fun _ t ht _ => ih h t ht
  | includeFile name position atEnd rest _ ih =>
    exact fun s hs => (obeyed_includeFile hM name position h.1 s hs).bind fun full t ht _ =>
      ih full (h.2 full) t ht
  | addMacro definition rest ih =>
    exact fun s hs =>
      (accords_change hs (fun h => ⟨h.lexicon, h.atEnds⟩) rfl).bind fun _ t ht _ => ih h t ht
  | report severity id text position data rest ih =>
    exact fun s hs =>
      (obeyed_report hM severity id text position data s hs).bind fun _ t ht _ => ih h t ht
  | pushBack token rest ih =>
    exact fun s hs => (obeyed_pushBack hM token s hs).bind fun _ t ht _ => ih h t ht
  | note label rest ih =>
    exact fun s hs =>
      (accords_change hs (fun h => ⟨h.lexicon, h.atEnds⟩) rfl).bind fun _ t ht _ => ih h t ht
  | look rest ih => exact fun s hs => accords_get_bind (ih _ _ (h _ _) s hs)
  | fail fault => exact fun s hs => accords_giveUp hM hs h
  | done kind value => exact fun s hs => accords_pure _ hs

-- ---------------------------------------------------------------------------
-- Scanning
-- ---------------------------------------------------------------------------

/-- A macro that cannot be resolved is reported. -/
theorem obeyed_resolve (table : MacroTable) (args : List String) (position : Option Position) :
    (law M).Obeyed (table.resolve args position) := by
  intro s hs
  have hL := law_lenient hM
  unfold MacroTable.resolve
  refine Accords.bind (accords_orFail hL _ hs trivial) fun written t ht _ => ?_
  dsimp only
  split
  · exact accords_pure _ ht
  · refine Accords.bind (accords_orFail hL _ ht trivial) fun text u hu _ => ?_
    exact (accords_emit hL hu rfl).bind fun _ _ hu' _ => accords_pure _ hu'

/-- Calls nested too deeply are reported. -/
theorem obeyed_expandCall (call : Call) : (law M).Obeyed (expandCall call) := by
  have hinject (text : List Char) (length : Nat) :
      (law M).Obeyed (discard (onStream (Stream.injectText text length)) : Run Scanner Unit) :=
        fun s hs =>
    accords_discard (obeyed_onStream hM (Stream.respects_injectText _ _) s hs)
  intro s hs
  unfold expandCall
  refine accords_get_bind ((obeyed_resolve hM _ _ _ s hs).bind fun resolution t ht _ => ?_)
  cases resolution with
  | undefined => exact obeyed_error hM _ _ t ht
  | missing => exact hinject _ _ t ht
  | expanded definition text =>
    dsimp only
    split
    · exact hinject _ _ t ht
    · refine (obeyed_onStream hM (Stream.respects_injectMacro _ _ _ _ _) t ht).bind
        fun done u hu _ => ?_
      cases done with
      | true => exact accords_pure _ hu
      | false => exact obeyed_error hM _ _ u hu

/-- The cursor is looked at beside the log. -/
theorem obeyed_theCursor : (law M).Obeyed (onStream Stream.theCursor) :=
  obeyed_onStream hM Stream.respects_theCursor

/-- It is moved there as well. -/
theorem obeyed_seek (pos : Nat) : (law M).Obeyed (onStream (Stream.seek pos)) :=
  obeyed_onStream hM (Stream.respects_seek pos)

/-- A malformed call is reported, and so is one that does not end. -/
theorem obeyed_readCallRound : (law M).Obeyed readCallRound := by
  intro s hs
  unfold readCallRound
  refine (obeyed_theCursor hM s hs).bind fun c t ht _ => ?_
  split
  · exact (obeyed_seek hM _ t ht).bind fun _ _ hu _ => accords_pure _ hu
  · split
    · exact obeyed_error hM _ _ t ht
    · refine (obeyed_onStream hM Stream.respects_appendNextLine t ht).bind fun more u hu _ => ?_
      cases more with
      | true => exact accords_pure _ hu
      | false => exact obeyed_error hM _ _ u hu

/-- It is so in every round of reading a call. -/
theorem obeyed_readCall : (law M).Obeyed readCall := fun _ hs =>
  accords_get_bind
    (accords_repeated (L := law M) (fun _ => hM.beside _ _ _ rfl) (obeyed_readCallRound hM) _ hs)

/-- A call at the cursor is read and expanded. -/
theorem obeyed_expandAtCursor : (law M).Obeyed expandAtCursor := by
  intro s hs
  unfold expandAtCursor
  refine accords_get_bind ?_
  split
  · split
    · refine (obeyed_readCall hM s hs).bind fun call t ht _ => ?_
      exact (obeyed_expandCall hM call t ht).bind fun _ _ hu _ => accords_pure _ hu
    · exact accords_pure _ hs
  · exact accords_pure _ hs

/-- A call inside a match, too. -/
theorem obeyed_expandInMatch (start : Nat) (m : Match) :
    (law M).Obeyed (expandInMatch start m) := by
  intro s hs
  unfold expandInMatch
  refine accords_get_bind ?_
  split
  · exact accords_pure _ hs
  · refine (obeyed_theCursor hM s hs).bind fun c t ht _ => ?_
    dsimp only
    split
    · exact accords_pure _ ht
    · refine (obeyed_seek hM _ t ht).bind fun _ u hu _ => ?_
      refine (accords_discard (obeyed_expandAtCursor hM u hu)).bind fun _ v hv _ => ?_
      exact (obeyed_seek hM _ v hv).bind fun _ _ hw _ => accords_pure _ hw

/-- Text that no pattern matches is always reported. -/
theorem obeyed_reportUnmatched : (law M).Obeyed reportUnmatched := by
  intro s hs
  unfold reportUnmatched
  refine (obeyed_theCursor hM s hs).bind fun c t ht _ => ?_
  refine (obeyed_onStream hM Stream.respects_isReadUp t ht).bind fun readUp u hu _ => ?_
  split
  · exact obeyed_error hM _ _ u hu
  · exact obeyed_error hM _ _ u hu

/-- **A token.** The routine of its pattern is candid, and all else is reported. -/
theorem obeyed_scanAtCursor : (law M).Obeyed scanAtCursor := by
  intro s hs
  unfold scanAtCursor
  refine (accords_change hs (fun h => ⟨h.lexicon, h.atEnds⟩) rfl).bind fun _ t ht _ =>
    accords_get_bind ?_
  refine (obeyed_expandAtCursor hM t ht).bind fun expanded u hu _ => ?_
  cases expanded with
  | true => exact accords_pure _ hu
  | false =>
    refine accords_get_bind ((obeyed_theCursor hM u hu).bind fun c v hv _ => ?_)
    split
    · exact (obeyed_reportUnmatched hM v hv).bind fun _ _ hw _ => accords_pure _ hw
    · next p m hmatch =>
      have hp := hu.1.lexicon.of_mem (mem_of_firstMatch? hmatch)
      refine (obeyed_seek hM _ v hv).bind fun _ w hw _ => ?_
      -- what is made of the match, whether or not calls in it are looked for
      dsimp only
      split
      all_goals
        refine Accords.bind
          (by first | exact accords_pure _ hw | exact obeyed_expandInMatch hM _ _ w hw)
          fun expanded x hx _ => ?_
        split
        · exact accords_pure _ hx
        · split
          · next routine hroutine =>
            exact (obeyed_perform hM (hp routine hroutine m) x hx).bind fun _ _ hy _ =>
              accords_pure _ hy
          · exact (accords_pure _ hx).bind fun _ _ hy _ => accords_pure _ hy

/-- At the end of a file its routine is run, which is candid. -/
theorem obeyed_endOfInput : (law M).Obeyed endOfInput := by
  intro s hs
  unfold endOfInput
  refine accords_get_bind ?_
  dsimp only
  split
  · refine Accords.bind (accords_put hs (fun h => ⟨h.lexicon, h.atEnds⟩) rfl) fun _ t ht _ => ?_
    exact obeyed_error hM _ _ t ht
  · split
    · next done parent below hinputs =>
      have hatEnds := hs.1.atEnds
      rw [hinputs] at hatEnds
      obtain ⟨hdone, hbelow⟩ := List.forall_mem_cons.mp hatEnds
      refine (accords_emit (law_lenient hM) hs rfl).bind fun _ t ht hemit => ?_
      obtain rfl := returns_emit.mp hemit
      refine Accords.bind (accords_put ht (fun h => ⟨h.lexicon, ?_⟩) rfl) fun _ u hu _ => ?_
      · exact List.forall_mem_cons.mpr (List.forall_mem_cons.mp hbelow)
      · refine (accords_discard (obeyed_perform hM hdone u hu)).bind fun _ v hv _ =>
          accords_get_bind ?_
        refine (accords_change hv (fun h => ⟨h.lexicon, h.atEnds⟩) rfl).bind fun _ _ hw _ =>
          accords_pure _ hw
    · refine Accords.bind (accords_put hs (fun h => ⟨h.lexicon, h.atEnds⟩) rfl) fun _ _ ht _ =>
        accords_pure _ ht

/-- A round scans at the cursor or deals with an end. -/
theorem obeyed_scanRound : (law M).Obeyed scanRound := by
  intro s hs
  unfold scanRound
  refine (obeyed_onStream hM Stream.respects_readyNextLine s hs).bind fun ready t ht _ => ?_
  cases ready with
  | true =>
    refine (obeyed_onStream hM (respects_modify fun _ _ h => h ▸ rfl) t ht).bind fun _ u hu _ => ?_
    exact obeyed_scanAtCursor hM u hu
  | false => exact obeyed_endOfInput hM t ht

/-- **Scanning.** -/
theorem obeyed_next (rounds : Nat) : (law M).Obeyed (next rounds) := by
  intro s hs
  unfold next
  refine accords_get_bind ?_
  split
  · refine Accords.bind (accords_put hs (fun h => ⟨h.lexicon, h.atEnds⟩) rfl) fun _ _ ht _ =>
      accords_pure _ ht
  · exact accords_pure _ hs
  · split
    · exact accords_refuse (law_lenient hM) hs
    · exact accords_repeated (L := law M) (fun _ => hM.beside _ _ _ rfl)
        (obeyed_scanRound hM) rounds hs

end Lawful

-- ---------------------------------------------------------------------------
-- Work on a scanner
-- ---------------------------------------------------------------------------

/-- Work that is put together from what a scanner does itself. A fault ends it, and what it raises
on its own is not about the input. -/
inductive Candidly : {α : Type} → Run Scanner α → Prop
  | next (rounds : Nat) : Candidly (next rounds)
  | start (readsLabel : Bool) : Candidly (start readsLabel)
  | includeFile (name : String) (position : Option Position) {atEnd : Routine}
      (hatEnd : atEnd.Candid) : Candidly (includeFile name position atEnd)
  | pushBack (token : Token) : Candidly (pushBack token)
  | setMode (mode : Mode) : Candidly (setMode mode)
  | pushMode (mode : Mode) : Candidly (pushMode mode)
  | popMode : Candidly popMode
  | inject (text : String) (length : Nat) : Candidly (inject text length)
  | report (severity : Severity) (id text : String) (position : Option Position) (data : Payload) :
    Candidly (report severity id text position data)
  | error {α : Type} (id text : String) (position : Option Position) (data : Payload) :
    Candidly (errorAt id text position data : Run Scanner α)
  | change {f : Scanner → Scanner} (hcandid : ∀ s, s.Candid → (f s).Candid)
    (hlog : ∀ s, (f s).messages = s.messages) : Candidly (modify f)
  | look : Candidly get
  | giveUp {α : Type} {fault : Fault} (h : fault.report? = none) :
      Candidly (fail fault : Run Scanner α)
  | done {α : Type} (a : α) : Candidly (pure a)
  | andThen {α β : Type} {x : Run Scanner α} {f : α → Run Scanner β}
      (hx : Candidly x) (hf : ∀ a, Candidly (f a)) : Candidly (x >>= f)

/-- **Candid work** keeps to a law of message logs. -/
theorem Candidly.obeyed {x : Run Scanner α} (hM : Lawful M) (h : Candidly x) :
    (law M).Obeyed x := by
  induction h with
  | next rounds => exact obeyed_next hM rounds
  | start readsLabel => exact obeyed_start hM readsLabel
  | includeFile name position hatEnd => exact obeyed_includeFile hM name position hatEnd
  | pushBack token => exact obeyed_pushBack hM token
  | setMode mode => exact obeyed_setMode hM mode
  | pushMode mode => exact obeyed_pushMode hM mode
  | popMode => exact obeyed_popMode hM
  | inject text length => exact obeyed_inject hM text length
  | report severity id text position data => exact obeyed_report hM severity id text position data
  | error id text position data => exact obeyed_errorAt hM id text position data
  | change hcandid hlog => exact fun s hs => accords_change hs (hcandid s) (hlog s)
  | look => exact fun s hs => ⟨hs, (law M).still s⟩
  | giveUp hfault => exact fun s hs => accords_giveUp hM hs hfault
  | done a => exact fun s hs => accords_pure a hs
  | andThen _ _ ihx ih => exact fun s hs => (ihx s hs).bind fun a t ht _ => ih a t ht

/-- An operation that brings in candid routines only. -/
def Operation.Candid : Operation → Prop
  | .includeFile _ _ atEnd => atEnd.Candid
  | .addPattern _ p => p.Candid
  | _ => True

/-- Operations are candid work, but for changes of the settings. -/
theorem candidly_carryOut {op : Operation} (h : op.Candid)
    (hsettings : ∀ settings, op ≠ .configure settings) : Candidly (carryOut op) := by
  cases op with
  | start readsLabel => exact .andThen (.start readsLabel) fun _ => .done _
  | next rounds => exact .andThen (.next rounds) fun _ => .done _
  | pushBack token => exact .andThen (.pushBack token) fun _ => .done _
  | setMode mode => exact .andThen (.setMode mode) fun _ => .done _
  | pushMode mode => exact .andThen (.pushMode mode) fun _ => .done _
  | popMode => exact .andThen .popMode fun _ => .done _
  | includeFile name position atEnd =>
    exact .andThen (.includeFile name position h) fun _ => .done _
  | close =>
    refine .andThen (.change (fun s hs => ⟨hs.lexicon, ?_⟩) fun _ => rfl) fun _ => .done _
    exact fun _ hinput => (List.not_mem_nil hinput).elim
  | inject text length => exact .andThen (.inject text length) fun _ => .done _
  | addMacro definition =>
    exact .andThen (.change (fun s hs => ⟨hs.lexicon, hs.atEnds⟩) fun _ => rfl) fun _ => .done _
  | addPattern mode p =>
    exact .andThen (.change (fun s hs => ⟨hs.lexicon.add mode h, hs.atEnds⟩) fun _ => rfl) fun _ =>
      .done _
  | report severity id text position data =>
    exact .andThen (.report severity id text position data) fun _ => .done _
  | configure settings => exact (hsettings settings rfl).elim

/-- **An operation** raises what it records, and the log goes on counting its errors. -/
theorem tells_carryOut {op : Operation} (hop : op.Candid) (h : reporting.Holds s) :
    reporting.Holds ((carryOut op).run s).state ∧
      s.messages.Tells ((carryOut op).run s).result ((carryOut op).run s).state.messages := by
  by_cases hsettings : ∀ settings, op ≠ .configure settings
  · obtain ⟨hholds, htold⟩ := (candidly_carryOut hop hsettings).obeyed lawful_reporting s h
    exact ⟨hholds, htold.tells⟩
  · obtain ⟨settings, hop⟩ := Classical.not_forall.mp hsettings
    obtain rfl := Classical.not_not.mp hop
    exact ⟨⟨⟨h.1.lexicon, h.1.atEnds⟩, h.2⟩, MessageLog.tells_ok rfl⟩

end Scanner

end GrammarEngine
