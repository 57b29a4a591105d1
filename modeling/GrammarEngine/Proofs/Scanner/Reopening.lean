import GrammarEngine.Proofs.Scanner.Regime
import GrammarEngine.Scanner.Post

/-!
# Reopening a scanner

A scanner that is opened starts from the top, whatever was done with it before: wherever an earlier
run was left, in a mode of its own, behind an error or with a token pushed back, nothing of it can
be observed afterwards. What is observed is the same as with a scanner that was just made for the
same patterns and the same input.

Opening does not make the two scanners equal. The messages and the notes of the earlier run are
kept, in front of the later ones. So a scanner is compared with the same one with a past: no
operation can tell the two apart, and none changes the past. The way a scanner was before it was
opened matters in one point only: it has gathered patterns and macros, and the scanner to compare it
with is made with those.

Main results:

* `alongside_start` — opening turns whatever was there into the past.
* `observe_later` — operations do not tell a scanner from the same one with a past.
* `observe_reopened` — reopening forgets the previous run.
-/

namespace GrammarEngine

open Run

/-- What a scanner has reported and noted so far. -/
def Past.of (s : Scanner) : Past := ⟨s.messages.messages, s.messages.errors, s.notes⟩

/-- Something past, and what came after it. -/
def Past.append (past later : Past) : Past :=
  ⟨past.messages ++ later.messages, past.errors + later.errors, past.notes ++ later.notes⟩

namespace Scanner

variable {past : Past} {s t : Scanner}

/-- Scanners whose default mode has patterns, with all routines. -/
def usable : Regime where
  licence := True
  Holds s := (s.lexicon.patterns? s.defaultMode).isSome
  of_sameStock := by
    intro s t h hstock
    rw [hstock.lexicon, hstock.defaultMode]
    exact h
  included h _ := h
  pushedBack _ h := h
  routines _ _ _ routine _ m := Routine.within_of_licence trivial (routine m)

theorem returning_usable : usable.Returning where
  atEnds _ input _ := Routine.within_of_licence trivial input.atEnd
  resumed h _ := h
  delivered h := h

-- ---------------------------------------------------------------------------
-- Operations, and what can be observed of them
-- ---------------------------------------------------------------------------

/-- What a scanner is given beside its patterns and its input: macros, files, limits, and what
its log is told. -/
structure Settings where
  macros : MacroTable
  disk : Disk
  callsMacros : Bool
  maxDepth : Nat
  label : String
  console : Bool
  abortOnWarning : Bool

/-- The settings of a scanner. -/
def settings (s : Scanner) : Settings where
  macros := s.macros
  disk := s.disk
  callsMacros := s.callsMacros
  maxDepth := s.maxDepth
  label := s.label
  console := s.messages.console
  abortOnWarning := s.messages.abortOnWarning

/-- A scanner with other settings. -/
def configured (settings : Settings) (s : Scanner) : Scanner :=
  { s with
    macros := settings.macros
    disk := settings.disk
    callsMacros := settings.callsMacros
    maxDepth := settings.maxDepth
    label := settings.label
    messages :=
      { s.messages with console := settings.console, abortOnWarning := settings.abortOnWarning } }

/-- A scanner with one more pattern. -/
def extended (mode : Mode) (p : TokenPattern) (s : Scanner) : Scanner :=
  { s with lexicon := s.lexicon.add mode p }

/-- What can be done with a scanner. Its settings may change as well: files are written, and macros
come from elsewhere. -/
inductive Operation where
  | start (readsLabel : Bool)
  | next (rounds : Nat)
  | pushBack (token : Token)
  | setMode (mode : Mode)
  | pushMode (mode : Mode)
  | popMode
  | includeFile (name : String) (position : Option Position) (atEnd : Routine)
  | close
  | inject (text : String) (length : Nat)
  | addMacro (definition : Macro)
  | addPattern (mode : Mode) (p : TokenPattern)
  | report (severity : Severity) (id text : String) (position : Option Position) (data : Payload)
  | configure (settings : Settings)

/-- What an operation hands back: a token, the full name of a file, or nothing. -/
inductive Answer where
  | token (token : Token)
  | name (full : String)
  | nothing

/-- Carries an operation out. -/
def carryOut : Operation → Run Scanner Answer
  | .start readsLabel => do
    start readsLabel
    pure .nothing
  | .next rounds => do
    let token ← next rounds
    pure (.token token)
  | .pushBack token => do
    pushBack token
    pure .nothing
  | .setMode mode => do
    setMode mode
    pure .nothing
  | .pushMode mode => do
    pushMode mode
    pure .nothing
  | .popMode => do
    popMode
    pure .nothing
  | .includeFile name position atEnd => do
    let full ← includeFile name position atEnd
    pure (.name full)
  | .close => do
    Run.modify close
    pure .nothing
  | .inject text length => do
    inject text length
    pure .nothing
  | .addMacro definition => do
    Run.modify (addMacro definition)
    pure .nothing
  | .addPattern mode p => do
    Run.modify (extended mode p)
    pure .nothing
  | .report severity id text position data => do
    report severity id text position data
    pure .nothing
  | .configure settings => do
    Run.modify (configured settings)
    pure .nothing

/-- What can be observed of an operation: what it hands back, or its fault; where the scanner is
then; and what was reported, noted and logged meanwhile. -/
structure Observation where
  answer : Except Fault Answer
  position : Position
  mode : Mode
  line : Option String
  calls : List MacroCall
  messages : List Message
  errors : Nat
  notes : List Note
  events : List Event

/-- What can be observed of an operation that a scanner has carried out. -/
def observation (s : Scanner) (o : Outcome Scanner Answer) : Observation where
  answer := o.result
  position := o.state.position
  mode := o.state.mode
  line := o.state.line?
  calls := o.state.history
  messages := o.state.messages.messages.drop s.messages.messages.length
  errors := o.state.messages.errors - s.messages.errors
  notes := o.state.notes.drop s.notes.length
  events := o.trace

/-- What can be observed of several operations. One that fails does not keep the others from
being carried out. -/
def observe : List Operation → Scanner → List Observation
  | [], _ => []
  | op :: rest, s => observation s ((carryOut op).run s) :: observe rest ((carryOut op).run s).state

/-- A scanner after several operations. -/
def after (ops : List Operation) (s : Scanner) : Scanner :=
  ops.foldl (fun s op => ((carryOut op).run s).state) s

theorem isSome_patterns?_add {lexicon : Lexicon} {m : Mode} (mode : Mode) (p : TokenPattern)
    (h : (lexicon.patterns? m).isSome) : ((lexicon.add mode p).patterns? m).isSome := by
  unfold Lexicon.patterns? at h ⊢
  induction lexicon with
  | nil => cases h
  | cons entry rest ih =>
    obtain ⟨m', patterns⟩ := entry
    unfold Lexicon.add
    rw [List.lookup_cons] at h
    split
    all_goals
      rw [List.lookup_cons]
      split
      · rfl
      · next hne =>
        rw [hne] at h
        first | exact h | exact ih h

/-- A scanner that is about to start from the top. -/
def rewound (readsLabel : Bool) (s : Scanner) : Scanner :=
  { s.close with
    readsLabel := readsLabel
    ended := none
    lineLag := 0
    tokenStart := none
    modeStart := none
    modeStack := []
    mode := s.defaultMode }

/-- Opens the master input. -/
def openMaster (readsLabel : Bool) : Run Scanner Unit := do
  let s ← Run.get
  let stream ←
    if readsLabel then pure (Stream.ofText s.master s.label)
    else openFile s.master "open_file" "Cannot open file " none
  Run.modify fun s => { s with inputs := [{ stream := stream }] }

theorem start_eq (readsLabel : Bool) :
    start readsLabel = Run.modify (rewound readsLabel) >>= fun _ => openMaster readsLabel := rfl

theorem governs_openMaster (readsLabel : Bool) : usable.Governs past (openMaster readsLabel) := by
  have hread (stream : Stream) :
      usable.Governs past (Run.modify fun s => { s with inputs := [{ stream := stream }] }) := by
    refine respects_modify ?_
    rintro s _ ⟨hholds, rfl⟩
    exact ⟨hholds, rfl⟩
  unfold openMaster
  refine respects_get ?_ fun s _ _ => ?_
  · rintro s _ ⟨-, rfl⟩
    rfl
  · dsimp only
    split
    · exact respects_bind (respects_pure _) hread
    · exact respects_bind (governs_openFile _ _ _ _) hread

theorem governs_start (readsLabel : Bool) : usable.Governs past (start readsLabel) := by
  rw [start_eq]
  refine respects_bind (respects_modify ?_) fun _ => governs_openMaster readsLabel
  rintro s _ ⟨hholds, rfl⟩
  exact ⟨hholds, rfl⟩

theorem governs_carryOut (op : Operation) : usable.Governs past (carryOut op) := by
  cases op with
  | start readsLabel => exact respects_bind (governs_start readsLabel) fun _ => respects_pure _
  | next rounds =>
    exact respects_bind (governs_next returning_usable rounds) fun _ => respects_pure _
  | pushBack token => exact respects_bind (governs_pushBack trivial token) fun _ => respects_pure _
  | setMode mode => exact respects_bind (governs_setMode mode) fun _ => respects_pure _
  | pushMode mode => exact respects_bind (governs_pushMode mode) fun _ => respects_pure _
  | popMode => exact respects_bind governs_popMode fun _ => respects_pure _
  | includeFile name position atEnd =>
    have hatEnd := Routine.within_of_licence trivial atEnd
    exact respects_bind (governs_includeFile name position hatEnd) fun _ => respects_pure _
  | inject text length => exact respects_bind (governs_inject text length) fun _ => respects_pure _
  | addMacro definition =>
    exact respects_bind (governs_addMacro definition) fun _ => respects_pure _
  | report severity id text position data =>
    exact respects_bind (governs_report severity id text position data) fun _ => respects_pure _
  | close =>
    refine respects_bind (respects_modify ?_) fun _ => respects_pure _
    rintro s _ ⟨hpatterns, rfl⟩
    exact ⟨hpatterns, rfl⟩
  | configure settings =>
    refine respects_bind (respects_modify ?_) fun _ => respects_pure _
    rintro s _ ⟨hpatterns, rfl⟩
    exact ⟨hpatterns, rfl⟩
  | addPattern mode p =>
    refine respects_bind (respects_modify ?_) fun _ => respects_pure _
    rintro s _ ⟨hpatterns, rfl⟩
    exact ⟨isSome_patterns?_add mode p hpatterns, rfl⟩

/-- What is new in a list does not depend on what was there before. -/
theorem drop_past {β : Type} (before old new : List β) :
    (before ++ new).drop (before ++ old).length = new.drop old.length := by
  rw [List.length_append, ← List.drop_drop, List.drop_left]

/-- With a past the same is observed of an operation. -/
theorem observation_later {op : Operation} (hpast : Past.of t = past.append (.of s))
    (h : Alongside (usable.Later past) usable.Allows (carryOut op) s (carryOut op) t) :
    observation t ((carryOut op).run t) = observation s ((carryOut op).run s) := by
  obtain ⟨hresult, htrace, ⟨-, hlater⟩, -⟩ := h
  obtain ⟨hmessages, herrors, hnotes⟩ := (Past.mk.injEq ..).mp hpast
  unfold observation
  rw [hresult, htrace, hlater, hmessages, herrors, hnotes]
  congr 1
  · exact drop_past past.messages _ _
  · exact Nat.add_sub_add_left past.errors _ _
  · exact drop_past past.notes _ _

/-- No operations tell a scanner from the same one with a past. -/
theorem observe_later (h : usable.Later past s t) (ops : List Operation) :
    observe ops t = observe ops s := by
  induction ops generalizing s t with
  | nil => rfl
  | cons op rest ih =>
    have hboth := governs_carryOut op s t h
    obtain ⟨-, rfl⟩ := h
    unfold observe
    rw [observation_later rfl hboth, ih hboth.states]

/-- A default mode that has patterns keeps them. -/
theorem isSome_patterns?_after (hpatterns : (s.lexicon.patterns? s.defaultMode).isSome)
    (ops : List Operation) :
    ((after ops s).lexicon.patterns? (after ops s).defaultMode).isSome := by
  induction ops generalizing s with
  | nil => exact hpatterns
  | cons op rest ih => exact ih ((governs_carryOut op).leaves hpatterns).1

-- ---------------------------------------------------------------------------
-- Reopening
-- ---------------------------------------------------------------------------

/-- A scanner can be made if its default mode has patterns. -/
theorem make_eq_ok_iff {master : String} {lexicon : Lexicon} {defaultMode : Mode} :
    make master lexicon defaultMode = .ok t ↔ (lexicon.patterns? defaultMode).isSome ∧
      t = { master := master, lexicon := lexicon, defaultMode := defaultMode,
            mode := defaultMode } := by
  unfold make
  cases lexicon.patterns? defaultMode with
  | none => simp
  | some patterns => simp [eq_comm]

/-- Opening a scanner turns what was there before into its past. -/
theorem alongside_start (hmade : make s.master s.lexicon s.defaultMode = .ok t)
    (readsLabel : Bool) :
    Alongside (usable.Later (.of s)) usable.Allows (start readsLabel) (t.configured s.settings)
      (start readsLabel) s := by
  obtain ⟨hpatterns, rfl⟩ := make_eq_ok_iff.mp hmade
  rw [start_eq]
  refine (alongside_modify ?_).bind fun _ => governs_openMaster readsLabel
  refine ⟨hpatterns, ?_⟩
  simp [rewound, Past.onScanner, Past.onLog, Past.of, configured, settings, close]

/-- **Reopening forgets the previous run.** Whatever was done with a scanner, and however it
ended: if the scanner is opened again, and any operations follow, then what is observed is what
is observed of a scanner that was made just now, for the same input, with the same patterns and
the same settings. -/
theorem observe_reopened {master : String} {lexicon : Lexicon} {defaultMode : Mode} {made : Scanner}
    (hmade : make master lexicon defaultMode = .ok made) (history : List Operation)
    (hs : s = after history made) (readsLabel : Bool) (ops : List Operation) :
    ∃ fresh, make s.master s.lexicon s.defaultMode = .ok fresh ∧
      observe (.start readsLabel :: ops) s =
        observe (.start readsLabel :: ops) (fresh.configured s.settings) := by
  have hpatterns : (s.lexicon.patterns? s.defaultMode).isSome := by
    obtain ⟨hfirst, rfl⟩ := make_eq_ok_iff.mp hmade
    rw [hs]
    exact isSome_patterns?_after hfirst history
  obtain ⟨fresh, hfresh⟩ : ∃ fresh, make s.master s.lexicon s.defaultMode = .ok fresh :=
    ⟨_, make_eq_ok_iff.mpr ⟨hpatterns, rfl⟩⟩
  refine ⟨fresh, hfresh, ?_⟩
  have hstart := (alongside_start hfresh readsLabel).bind fun _ => respects_pure Answer.nothing
  -- a scanner that was just made has no past of its own
  have hpast : Past.of s = (Past.of s).append (.of (fresh.configured s.settings)) := by
    obtain ⟨-, rfl⟩ := make_eq_ok_iff.mp hfresh
    simp [Past.append, Past.of, configured]
  have hfirst : observation s ((carryOut (.start readsLabel)).run s) =
      observation (fresh.configured s.settings) ((carryOut (.start readsLabel)).run
        (fresh.configured s.settings)) :=
    observation_later hpast hstart
  exact List.cons_eq_cons.mpr ⟨hfirst, observe_later hstart.states ops⟩

/-- Words, and strings in a mode of their own. -/
private def stringed : Lexicon :=
  [ (none,
      [ ⟨none, ⟨.repeated 1 none false (.oneOf false [.char ' ', .char '\n']), 0, {}⟩, none⟩,
        ⟨some "ID", ⟨.repeated 1 none false (.oneOf false [.range 'a' 'z']), 0, {}⟩, none⟩,
        ⟨none, ⟨.char '"', 0, {}⟩, some (Post.routine none [.pushMode (some "string")])⟩ ]),
    (some "string",
      [ ⟨some "STRING", ⟨.repeated 1 none false (.oneOf true [.char '"']), 0, {}⟩, none⟩,
        ⟨none, ⟨.char '"', 0, {}⟩, some (Post.routine none [.popMode])⟩ ]) ]

/-- A string that does not end in its line. -/
private def unterminated : Scanner :=
  { master := "a \"b\nc"
    lexicon := stringed
    defaultMode := none
    mode := none }

/-- The first line of a string is taken back once, and the end of the input comes before that
of the string. -/
private def abandoned : List Operation :=
  [.start true, .next 9, .next 9, .pushBack ⟨"STRING", .text "b\n", none⟩, .next 9, .next 9,
    .next 9, .pushBack ⟨"ID", .text "z", none⟩]

/-- A run was given up inside a string, behind an error, with a token pushed back. -/
theorem observe_reopened_unterminated : make "a \"b\nc" stringed none = .ok unterminated ∧
    (after abandoned unterminated).mode = some "string" ∧ (after abandoned unterminated).lineLag =
      1 ∧ (after abandoned unterminated).messages.errors = 1 ∧
      (after abandoned unterminated).pending.isSome ∧
    ∃ fresh, make (after abandoned unterminated).master (after abandoned unterminated).lexicon
        (after abandoned unterminated).defaultMode = .ok fresh ∧
      observe [.start true, .next 9, .popMode, .next 9] (after abandoned unterminated) =
        observe [.start true, .next 9, .popMode, .next 9]
          (fresh.configured (after abandoned unterminated).settings) := by
  have hmade : make "a \"b\nc" stringed none = .ok unterminated := rfl
  refine ⟨hmade, by decide +kernel, by decide +kernel, by decide +kernel, by decide +kernel, ?_⟩
  exact observe_reopened hmade abandoned rfl true [.next 9, .popMode, .next 9]

end Scanner

end GrammarEngine
