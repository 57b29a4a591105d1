import GrammarEngine.Proofs.Scanner.Changes
import GrammarEngine.Proofs.Telling

/-!
# Requests that are refused

Between two tokens a scanner may be asked to go on with a file, to take a token back, or to
switch modes. Each of these requests can be refused: the file is being read already or cannot be
read, there is a token pushed back, a mode has no patterns, or there is none to return to. A
request that is refused leaves the scanner as it was. Only what it has reported is in the log,
and no operation looks at that.

That the request to return to a mode is refused only if there is none depends on the modes that a
scanner knows: it is in one that has patterns, and so are those that it keeps (`Known`). Nothing
takes patterns away.

Main results:

* `known_after` — the modes of a scanner have patterns.
* `refused_leaves` — what a request leaves that is refused.
* `observe_refused` — no operations can tell that it was made.
-/

namespace GrammarEngine

open Run Relation

namespace Scanner

variable {s t : Scanner}

-- ---------------------------------------------------------------------------
-- The modes that a scanner knows
-- ---------------------------------------------------------------------------

/-- The default mode has patterns, and so do the current mode and those that are kept. -/
structure Known (s : Scanner) : Prop where
  default : (s.lexicon.patterns? s.defaultMode).isSome
  current : (s.lexicon.patterns? s.mode).isSome
  kept : ∀ mode ∈ s.modeStack, (s.lexicon.patterns? mode).isSome

/-- Reading on in the current input makes no mode unknown. -/
theorem Busied.known (h : Busied s t) (hs : Known s) : Known t := by
  rw [h.rest]
  exact ⟨hs.default, hs.current, hs.kept⟩

/-- Neither does any change. -/
theorem Changes.known (h : Changes s t) (hs : Known s) : Known t := by
  cases h with
  | busied h => exact h.known hs
  | switched hmode => exact ⟨hs.default, hmode, hs.kept⟩
  | pushed hmode => exact ⟨hs.default, hmode, List.forall_mem_cons.mpr ⟨hs.current, hs.kept⟩⟩
  | popped hstack =>
    have hkept := hs.kept
    rw [hstack] at hkept
    exact ⟨hs.default, hs.current, (List.forall_mem_cons.mp hkept).2⟩
  | included | pushedBack | resumed | delivered => exact ⟨hs.default, hs.current, hs.kept⟩

/-- Nor any step. -/
theorem Turns.known (h : Turns s t) (hs : Known s) : Known t := by
  cases h with
  | changed h => exact h.known hs
  | finished | closed | opened => exact ⟨hs.default, hs.current, hs.kept⟩
  | rewound => exact ⟨hs.default, hs.default, fun _ hmode => nomatch hmode⟩
  | extended mode p =>
    exact ⟨isSome_patterns?_add mode p hs.default, isSome_patterns?_add mode p hs.current,
      fun m hm => isSome_patterns?_add mode p (hs.kept m hm)⟩

/-- **The modes of a scanner** have patterns, whatever was done with it. -/
theorem known_after {master : String} {lexicon : Lexicon} {defaultMode : Mode} {made : Scanner}
    (hmade : make master lexicon defaultMode = .ok made) (history : List Operation) :
    Known (after history made) := by
  obtain ⟨hpatterns, rfl⟩ := make_eq_ok_iff.mp hmade
  refine after_invariant (fun _ _ hs h => h.known hs)
    (fun _ _ _ hs => ⟨hs.default, hs.current, hs.kept⟩) ?_
  exact ⟨hpatterns, hpatterns, fun _ hmode => nomatch hmode⟩

-- ---------------------------------------------------------------------------
-- Refused requests
-- ---------------------------------------------------------------------------

/-- A request to go on with a file, to take a token back, or to switch modes. -/
def Operation.IsRequest : Operation → Prop
  | .includeFile _ _ _ | .pushBack _ | .setMode _ | .pushMode _ | .popMode => True
  | _ => False

/-- A scanner that has recorded what a fault reports, if it reports anything. -/
def told (fault : Fault) (s : Scanner) : Scanner :=
  match fault.report? with
  | none => s
  | some m => { s with messages := s.messages.recorded m }

/-- A plain fault is not told to the log. -/
theorem told_of_plain {fault : Fault} (h : fault.IsPlain) : s.told fault = s := by
  unfold told
  rw [h.report?_eq_none]

/-- What is left is the scanner as it was, with what its fault reports, if there is a fault. -/
def Refusal {α : Type} (s : Scanner) : Except Fault α → Scanner → Prop
  | .ok _, _ => True
  | .error fault, t => t = s.told fault

/-- So giving up with one is a refusal that leaves all as it is. -/
theorem Refusal.of_fault {α : Type} {fault : Fault} (h : fault.IsPlain) :
    Refusal s (.error fault : Except Fault α) s := (told_of_plain h).symm

/-- What is done after a step that can be refused, and cannot be refused itself. -/
theorem refusal_bind {α β : Type} {x : Run Scanner α} {f : α → Run Scanner β}
    (h : x.Leaves s (Refusal s))
    (hf : ∀ a t, (f a).Leaves t fun r _ => ∃ b, r = .ok b) : (x >>= f).Leaves s (Refusal s) := by
  refine h.bind (fun a t _ => (hf a t).mono fun r t' hr => ?_) fun fault t ht => ht
  obtain ⟨b, rfl⟩ := hr
  trivial

/-- An error is told to the log, and that is all. -/
theorem refusal_errorAt {α : Type} (id text : String) (position : Option Position) (data : Payload)
    (s : Scanner) : (errorAt id text position data : Run Scanner α).Leaves s (Refusal s) := by
  let m : Message := ⟨.error, id, text, position.getD s.position, s.line?, data, s.history⟩
  have herror :
      (MessageLog.error m.id m.text m.position m.line m.data m.calls : Run MessageLog α).run
          s.messages =
        ⟨.error (.parse m), s.messages.recorded m, s.messages.echo m⟩ := by
    unfold MessageLog.error
    rw [run_bind, MessageLog.run_write]
    rfl
  unfold Leaves
  rw [errorAt_result]
  show { s with messages :=
    Outcome.state (Run.run (MessageLog.error _ _ _ _ _ _ : Run MessageLog α) s.messages) } = _
  rw [herror]
  rfl

/-- A file that cannot be opened is refused. -/
theorem refusal_openFile (name id complaint : String) (position : Option Position) (s : Scanner) :
    (openFile name id complaint position).Leaves s (Refusal s) := by
  unfold openFile
  rw [leaves_get_bind]
  cases hfile : Stream.ofFile? s.disk name with
  | ok stream => trivial
  | error fault =>
    dsimp only
    split
    · exact refusal_errorAt _ _ _ _ s
    · exact .of_fault (Stream.only_ofFile? _ _ fault hfile)

/-- An inclusion is refused before any input is touched. -/
theorem refusal_includeFile (name : String) (position : Option Position) (atEnd : Routine)
    (s : Scanner) : (includeFile name position atEnd).Leaves s (Refusal s) := by
  unfold includeFile
  rw [leaves_get_bind]
  dsimp only
  split
  · exact refusal_errorAt _ _ _ _ s
  · exact refusal_bind (refusal_openFile _ _ _ _ s) fun stream t => ⟨_, rfl⟩

/-- A second token is refused without a word. -/
theorem refusal_pushBack (token : Token) (s : Scanner) : (pushBack token).Leaves s (Refusal s) := by
  unfold pushBack
  rw [leaves_get_bind]
  split
  · exact rfl
  · trivial

/-- So is a mode without patterns. -/
theorem refusal_setMode (mode : Mode) (s : Scanner) : (setMode mode).Leaves s (Refusal s) := by
  rw [leaves_setMode]
  split
  · trivial
  · exact rfl

theorem refusal_pushMode (mode : Mode) (s : Scanner) : (pushMode mode).Leaves s (Refusal s) := by
  rw [leaves_pushMode]
  split
  · trivial
  · exact rfl

/-- A mode that was kept has patterns, so that the scanner can return to it. -/
theorem refusal_popMode (hs : Known s) : popMode.Leaves s (Refusal s) := by
  rw [leaves_popMode]
  split
  · exact rfl
  · next mode below hstack =>
    have hmode : (s.lexicon.patterns? mode).isSome := hs.kept mode (hstack ▸ List.mem_cons_self)
    rw [if_pos hmode]
    trivial

/-- **A request that is refused** leaves the scanner as it was; what it has reported is
in the log. -/
theorem refused_leaves (hs : Known s) {op : Operation} (hop : op.IsRequest) :
    (carryOut op).Leaves s (Refusal s) := by
  have hcarry {α : Type} {x : Run Scanner α} {answer : α → Answer} (h : x.Leaves s (Refusal s)) :
      (x >>= fun a => pure (answer a)).Leaves s (Refusal s) := refusal_bind h fun _ _ => ⟨_, rfl⟩
  cases op with
  | includeFile name position atEnd => exact hcarry (refusal_includeFile name position atEnd s)
  | pushBack token => exact hcarry (refusal_pushBack token s)
  | setMode mode => exact hcarry (refusal_setMode mode s)
  | pushMode mode => exact hcarry (refusal_pushMode mode s)
  | popMode => exact hcarry (refusal_popMode hs)
  | start | next | close | inject | addMacro | addPattern | report | configure => exact hop.elim

-- ---------------------------------------------------------------------------
-- What is observed afterwards
-- ---------------------------------------------------------------------------

/-- A scanner that has neither reported nor noted anything so far. -/
def bare (s : Scanner) : Scanner :=
  { s with messages := { s.messages with messages := [], errors := 0 }, notes := [] }

/-- A scanner is the bare one with its past. -/
theorem onScanner_bare (s : Scanner) : (Past.of s).onScanner s.bare = s := by
  simp [Past.onScanner, Past.onLog, Past.of, bare]

theorem bare_told (fault : Fault) (s : Scanner) : (s.told fault).bare = s.bare := by
  unfold told
  cases fault.report? with
  | none => rfl
  | some m => rfl

/-- No operations look at the past of a scanner. -/
theorem observe_bare (h : usable.Holds s) (ops : List Operation) :
    observe ops s = observe ops s.bare := by
  have hlater : usable.Later (.of s) s.bare s := ⟨h, (onScanner_bare s).symm⟩
  exact observe_later hlater ops

/-- **Refused requests cannot be told.** Whatever was done with a scanner: if it is then asked to go
on with a file, to take a token back or to switch modes, and that is refused, then the scanner is
the same as before, but for what the fault reports. Whatever is done from then on, the same is
observed as if the request had not been made. -/
theorem observe_refused {master : String} {lexicon : Lexicon} {defaultMode : Mode} {made : Scanner}
    (hmade : make master lexicon defaultMode = .ok made) (history : List Operation)
    (hs : s = after history made) {op : Operation} (hop : op.IsRequest) {fault : Fault}
    (hrefused : ((carryOut op).run s).result = .error fault) :
    ((carryOut op).run s).state = s.told fault ∧
      ∀ ops, observe ops ((carryOut op).run s).state = observe ops s := by
  have hknown : Known s := hs ▸ known_after hmade history
  have hstate : ((carryOut op).run s).state = s.told fault := by
    have hleaves := refused_leaves hknown hop
    unfold Leaves at hleaves
    rw [hrefused] at hleaves
    exact hleaves
  refine ⟨hstate, fun ops => ?_⟩
  have htold : usable.Holds (s.told fault) := by
    unfold told
    cases fault.report? with
    | none => exact hknown.default
    | some m => exact hknown.default
  calc observe ops ((carryOut op).run s).state
      = observe ops (s.told fault) := by rw [hstate]
    _ = observe ops (s.told fault).bare := observe_bare htold ops
    _ = observe ops s.bare := by rw [bare_told]
    _ = observe ops s := (observe_bare hknown.default ops).symm

/-- Words, with blanks between them. -/
private def worded : Lexicon :=
  [ (none,
      [ ⟨none, ⟨.repeated 1 none false (.oneOf false [.char ' ', .char '\n']), 0, {}⟩, none⟩,
        ⟨some "ID", ⟨.repeated 1 none false (.oneOf false [.range 'a' 'z']), 0, {}⟩, none⟩ ]) ]

/-- A scanner that was not used yet. -/
private def untouched : Scanner :=
  { master := "main", lexicon := worded, defaultMode := none, mode := none }

/-- The scanner reads the first word of a macro, and takes it back. -/
private def takenBack : List Operation :=
  [ .configure
      { macros := {}, disk := { files := [(Location.ofName "main", .text "${m} c")] },
        callsMacros := true, maxDepth := 20, label := "<buffer>", console := false,
        abortOnWarning := false },
    .addMacro ⟨"m", "a b", none⟩, .start false, .next 9, .pushBack ⟨"ID", .text "a", none⟩ ]

/-- With a word taken back and a macro open, the scanner is asked to include the file
that it reads. -/
theorem observe_refused_recursion : make "main" worded none = .ok untouched ∧
    (after takenBack untouched).pending.isSome = true ∧ (after takenBack untouched).history.length =
      1 ∧ ∃ fault, (Fault.report? fault).map Message.id = some "include_recursion" ∧
      ((carryOut (.includeFile "main" none .idle)).run (after takenBack untouched)).result =
        .error fault ∧
      ((carryOut (.includeFile "main" none .idle)).run (after takenBack untouched)).state =
        (after takenBack untouched).told fault ∧
      observe [.next 9, .next 9, .next 9, .next 9]
          ((carryOut (.includeFile "main" none .idle)).run (after takenBack untouched)).state =
        observe [.next 9, .next 9, .next 9, .next 9] (after takenBack untouched) := by
  have hmade : make "main" worded none = .ok untouched := rfl
  have hid : ((faultOf? ((carryOut (.includeFile "main" none .idle)).run
      (after takenBack untouched)).result).bind Fault.report?).map Message.id =
        some "include_recursion" := by decide +kernel
  refine ⟨hmade, by decide +kernel, by decide +kernel, ?_⟩
  cases hresult :
      ((carryOut (.includeFile "main" none .idle)).run (after takenBack untouched)).result with
  | ok answer =>
    rw [hresult] at hid
    cases hid
  | error fault =>
    rw [hresult] at hid
    have hop : (Operation.includeFile "main" none .idle).IsRequest := trivial
    obtain ⟨hstate, hobserve⟩ := observe_refused hmade takenBack rfl hop hresult
    exact ⟨fault, hid, rfl, hstate, hobserve _⟩

end Scanner

end GrammarEngine
