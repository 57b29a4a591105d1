import GrammarEngine.Proofs.Scanner.Refusals
import Mathlib.Data.List.Induction

/-!
# Closed scanners

A scanner that is closed has no input and no token pushed back. It stays so until it is opened
again, a file is included or a token is pushed back (`StaysClosed`), and until then it has
nothing to scan.

Yet it may still deliver something. Closing does not forget the end of the whole input, if
that was remembered, and the end that is remembered is delivered before it is asked whether
there is any input. So what decides is whether the end was reached since the scanner was
opened last (`EndReached`): if not, each call for a token is refused, and otherwise each call
delivers the end token.

Main results:

* `isSome_ended_after` — the end is remembered if it was reached.
* `shut_carryOut` — a closed scanner stays closed.
* `next_after_close` — what a closed scanner delivers.
-/

namespace GrammarEngine

open Run Relation

namespace Scanner

variable {s t : Scanner} {master : String} {lexicon : Lexicon} {defaultMode : Mode} {made : Scanner}

-- ---------------------------------------------------------------------------
-- The end that is remembered
-- ---------------------------------------------------------------------------

theorem after_append (ops ops' : List Operation) (s : Scanner) :
    after (ops ++ ops') s = after ops' (after ops s) :=
  List.foldl_append

theorem Changes.ended (h : Changes s t) : t.ended = s.ended := by
  cases h with
  | busied h => rw [h.rest]
  | switched | pushed | popped | included | pushedBack | resumed | delivered => rfl

theorem Onward.ended (h : Onward s t) : t.ended = s.ended := by
  induction h with
  | refl => rfl
  | tail _ hstep ih => exact hstep.ended.trans ih

/-- Opening a scanner makes it forget the end. -/
theorem ended_start (readsLabel : Bool) (s : Scanner) :
    (carryOut (.start readsLabel)).Leaves s fun _ t => t.ended = none := by
  have hopened : (start readsLabel).Leaves s fun _ t => t.ended = none := by
    rw [start_eq, leaves_modify_bind]
    unfold openMaster
    rw [leaves_get_bind]
    dsimp only
    split
    · exact leaves_bind.mpr rfl
    · refine (openFile_opens _ _ _ _ _).bind (fun stream t h => ?_) fun _ t h => ?_
      · obtain ⟨-, rfl⟩ := h
        rfl
      · rw [h.rest]
        rfl
  exact hopened.bind (fun _ _ h => h) fun _ _ h => h

/-- A call for a token makes a scanner remember the end if it comes there. -/
theorem ended_next (rounds : Nat) (s : Scanner) : (carryOut (.next rounds)).Leaves s fun _ t =>
    t.ended.isSome ↔ s.ended.isSome ∨ ComesToEnd rounds s := by
  have hnext : (next rounds).Leaves s fun _ t => t.ended.isSome ↔
      s.ended.isSome ∨ ComesToEnd rounds s := by
    refine (next_calls rounds s).mono fun r t h => ?_
    rcases h with ⟨hnot, hthrough⟩ | ⟨hcomes, u, token, -, -, -, rfl⟩
    · rw [hthrough.ended, or_iff_left hnot]
    · exact iff_of_true rfl (.inr hcomes)
  exact hnext.bind (fun _ _ h => h) fun _ _ h => h

/-- No other operation has to do with it. -/
theorem ended_carryOut {op : Operation} (hstart : ∀ readsLabel, op ≠ .start readsLabel)
    (hnext : ∀ rounds, op ≠ .next rounds) (s : Scanner) :
    (carryOut op).Leaves s fun _ t => t.ended = s.ended := by
  have hcarry {α : Type} {x : Run Scanner α} {answer : α → Answer} (h : Keeps (Onward s) x) :
      (x >>= fun a => pure (answer a)).Leaves s fun _ t => t.ended = s.ended :=
    (h s .refl).bind (fun _ _ ht => ht.ended) fun _ _ ht => ht.ended
  cases op with
  | start readsLabel => exact (hstart readsLabel rfl).elim
  | next rounds => exact (hnext rounds rfl).elim
  | pushBack token => exact hcarry (changes_pushBack token)
  | setMode mode => exact hcarry (changes_setMode mode)
  | pushMode mode => exact hcarry (changes_pushMode mode)
  | popMode => exact hcarry changes_popMode
  | includeFile name position atEnd => exact hcarry (changes_includeFile name position atEnd)
  | inject text length => exact hcarry (confined_inject text length).changes
  | addMacro definition => exact hcarry (changes_addMacro definition)
  | report severity id text position data =>
    exact hcarry (confined_report severity id text position data).changes
  | close | addPattern | configure => rfl

/-- The end of the whole input has been reached since the scanner was opened last. An opening counts
also if there was no file to open. -/
def EndReached (history : List Operation) (made : Scanner) : Prop :=
  ∃ before rounds later, history = before ++ .next rounds :: later ∧
    ComesToEnd rounds (after before made) ∧ ∀ readsLabel, .start readsLabel ∉ later

/-- The end has been reached after one more operation if that operation does not open the scanner,
and the end has been reached before or is reached now. -/
theorem endReached_append {history : List Operation} {op : Operation} :
    EndReached (history ++ [op]) made ↔ (∀ readsLabel, op ≠ .start readsLabel) ∧
      (EndReached history made ∨
        ∃ rounds, op = .next rounds ∧ ComesToEnd rounds (after history made)) := by
  constructor
  · rintro ⟨before, rounds, later, hsplit, hcomes, hnone⟩
    rcases List.eq_nil_or_concat later with rfl | ⟨later', op', rfl⟩
    · obtain ⟨rfl, hop⟩ := List.append_inj' hsplit rfl
      obtain rfl := List.singleton_inj.mp hop
      exact ⟨nofun, .inr ⟨rounds, rfl, hcomes⟩⟩
    · rw [List.concat_eq_append] at hsplit hnone
      rw [← List.cons_append, ← List.append_assoc] at hsplit
      obtain ⟨rfl, hop⟩ := List.append_inj' hsplit rfl
      obtain rfl := List.singleton_inj.mp hop
      refine ⟨fun readsLabel hsame => hnone readsLabel (by simp [hsame]),
        .inl ⟨before, rounds, later', rfl, hcomes, ?_⟩⟩
      exact fun readsLabel hmem => hnone readsLabel (List.mem_append_left _ hmem)
  · rintro ⟨hop, ⟨before, rounds, later, rfl, hcomes, hnone⟩ | ⟨rounds, rfl, hcomes⟩⟩
    · refine ⟨before, rounds, later ++ [op], by simp, hcomes, fun readsLabel hmem => ?_⟩
      rcases List.mem_append.mp hmem with hmem | hmem
      · exact hnone readsLabel hmem
      · exact hop readsLabel (List.mem_singleton.mp hmem).symm
    · exact ⟨history, rounds, [], rfl, hcomes, fun _ => List.not_mem_nil⟩

/-- **The end is remembered** if it has been reached. -/
theorem isSome_ended_after (hmade : make master lexicon defaultMode = .ok made)
    (history : List Operation) : (after history made).ended.isSome ↔ EndReached history made := by
  induction history using List.reverseRecOn with
  | nil =>
    obtain ⟨-, rfl⟩ := make_eq_ok_iff.mp hmade
    refine iff_of_false Bool.false_ne_true ?_
    rintro ⟨before, rounds, later, hsplit, -⟩
    exact List.append_ne_nil_of_right_ne_nil before (List.cons_ne_nil _ _) hsplit.symm
  | append_singleton history op ih =>
    rw [after_append, endReached_append]
    show ((carryOut op).run (after history made)).state.ended.isSome ↔ _
    by_cases hstart : ∃ readsLabel, op = .start readsLabel
    · obtain ⟨readsLabel, rfl⟩ := hstart
      have hnone : ((carryOut (.start readsLabel)).run (after history made)).state.ended = none :=
        ended_start readsLabel _
      rw [hnone]
      exact iff_of_false Bool.false_ne_true fun h => h.1 readsLabel rfl
    · have hop : ∀ readsLabel, op ≠ .start readsLabel := fun readsLabel hsame =>
        hstart ⟨readsLabel, hsame⟩
      rw [and_iff_right hop, ← ih]
      by_cases hnext : ∃ rounds, op = .next rounds
      · obtain ⟨rounds, rfl⟩ := hnext
        have hiff : ((carryOut (.next rounds)).run (after history made)).state.ended.isSome ↔
            (after history made).ended.isSome ∨ ComesToEnd rounds (after history made) :=
              ended_next rounds _
        rw [hiff]
        simp
      · have hother : ∀ rounds, op ≠ .next rounds := fun rounds hsame => hnext ⟨rounds, hsame⟩
        have hsame : ((carryOut op).run (after history made)).state.ended =
            (after history made).ended :=
          ended_carryOut hop hother _
        rw [hsame, or_iff_left]
        rintro ⟨rounds, hsame, -⟩
        exact hother rounds hsame

theorem Turns.isEnd (h : Turns s t) (hs : ∀ token ∈ s.ended, token.isEnd = true) :
    ∀ token ∈ t.ended, token.isEnd = true := by
  cases h with
  | changed h =>
    rw [h.ended]
    exact hs
  | finished hend =>
    rintro _ ⟨⟩
    exact hend
  | rewound => exact nofun
  | closed | opened | extended => exact hs

/-- What is remembered is an end token. -/
theorem isEnd_ended_after (hmade : make master lexicon defaultMode = .ok made)
    (history : List Operation) : ∀ token ∈ (after history made).ended, token.isEnd = true := by
  obtain ⟨-, rfl⟩ := make_eq_ok_iff.mp hmade
  exact after_invariant (fun _ _ hs h => h.isEnd hs) (fun _ _ _ hs => hs) nofun

-- ---------------------------------------------------------------------------
-- Closed scanners
-- ---------------------------------------------------------------------------

/-- A scanner without inputs, and with no token pushed back. -/
structure Shut (s : Scanner) : Prop where
  inputs : s.inputs = []
  pending : s.pending = none

theorem Busied.shut (h : Busied s t) (hs : Shut s) : Shut t := by
  have hinputs := h.inputs
  rw [hs.inputs] at hinputs
  refine ⟨hinputs.eq_nil, ?_⟩
  rw [h.rest]
  exact hs.pending

theorem shut_told (fault : Fault) (hs : Shut s) : Shut (s.told fault) := by
  unfold told
  split
  · exact hs
  · exact ⟨hs.inputs, hs.pending⟩

/-- An operation that gives a closed scanner something to deliver. -/
def Operation.Feeds : Operation → Prop
  | .start _ | .includeFile _ _ _ | .pushBack _ => True
  | _ => False

/-- Opening a scanner closes it first, and if nothing is opened it stays closed. -/
theorem shut_start (readsLabel : Bool) (s : Scanner) : (start readsLabel).Leaves s fun r t =>
    (∃ fault, r = .error fault) → Shut t := by
  have hrewound : Shut (rewound readsLabel s) := ⟨rfl, rfl⟩
  have hopened (stream : Stream) (t : Scanner) :
      (modify fun s : Scanner => { s with inputs := [{ stream := stream }] }).Leaves t fun r t =>
        (∃ fault, r = .error fault) → Shut t := by
    rintro ⟨fault, hfault⟩
    cases hfault
  rw [start_eq, leaves_modify_bind]
  unfold openMaster
  rw [leaves_get_bind]
  dsimp only
  split
  · exact leaves_bind.mpr (hopened _ _)
  · exact (openFile_opens _ _ _ _ _).bind (fun stream t _ => hopened stream t) fun _ t h _ =>
      h.shut hrewound

/-- What an operation leaves of a closed scanner: a closed one, unless it has been given
something to deliver. -/
theorem shut_carryOut (hs : Shut s) (op : Operation) :
    (carryOut op).Leaves s fun r t => (op.Feeds → ∃ fault, r = .error fault) → Shut t := by
  -- what is handed back makes no difference
  have hquiet {α : Type} {x : Run Scanner α} {answer : α → Answer} {p : Except Fault Answer → Prop}
      (h : x.Leaves s fun _ t => Shut t) : (x >>= fun a => pure (answer a)).Leaves s fun r t =>
        p r → Shut t :=
    h.bind (fun _ _ ht _ => ht) fun _ _ ht _ => ht
  have hfed {α : Type} {x : Run Scanner α} {answer : α → Answer}
      (h : x.Leaves s fun r t => (∃ fault, r = .error fault) → Shut t) :
      (x >>= fun a => pure (answer a)).Leaves s fun r t => (True → ∃ fault, r = .error fault) →
      Shut t := by
    refine h.bind (fun a t _ => leaves_pure.mpr fun hfails => ?_) fun fault t ht _ =>
      ht ⟨fault, rfl⟩
    obtain ⟨fault, hfault⟩ := hfails trivial
    cases hfault
  have hrefused {α : Type} {x : Run Scanner α} (h : x.Leaves s (Refusal s)) :
      x.Leaves s fun r t => (∃ fault, r = .error fault) → Shut t := by
    refine h.mono fun r t hr hfails => ?_
    obtain ⟨fault, rfl⟩ := hfails
    rw [show t = s.told fault from hr]
    exact shut_told fault hs
  cases op with
  | start readsLabel => exact hfed (shut_start readsLabel s)
  | includeFile name position atEnd =>
    exact hfed (hrefused (refusal_includeFile name position atEnd s))
  | pushBack token => exact hfed (hrefused (refusal_pushBack token s))
  | next rounds =>
    refine hquiet ?_
    unfold Leaves
    cases hended : s.ended with
    | none =>
      rw [next_of_closed rounds hs.pending hended hs.inputs]
      exact hs
    | some token =>
      rw [next_of_ended rounds hs.pending hended]
      exact hs
  | setMode mode =>
    refine hquiet ?_
    rw [leaves_setMode]
    split <;> exact ⟨hs.inputs, hs.pending⟩
  | pushMode mode =>
    refine hquiet ?_
    rw [leaves_pushMode]
    split <;> exact ⟨hs.inputs, hs.pending⟩
  | popMode =>
    refine hquiet ?_
    rw [leaves_popMode]
    split
    · exact hs
    · split <;> exact ⟨hs.inputs, hs.pending⟩
  | inject text length =>
    exact hquiet (((confined_inject text length).busied s).mono fun _ _ h => h.shut hs)
  | report severity id text position data =>
    exact hquiet
      (((confined_report severity id text position data).busied s).mono fun _ _ h => h.shut hs)
  | close => exact hquiet (leaves_modify.mpr ⟨rfl, rfl⟩)
  | addMacro | addPattern | configure => exact hquiet (leaves_modify.mpr ⟨hs.inputs, hs.pending⟩)

/-- Operations that give a closed scanner nothing to deliver: those that could do so fail. -/
def StaysClosed : List Operation → Scanner → Prop
  | [], _ => True
  | op :: rest, s => (op.Feeds → ∃ fault, ((carryOut op).run s).result = .error fault) ∧
      StaysClosed rest ((carryOut op).run s).state

theorem StaysClosed.shut {ops : List Operation} (h : StaysClosed ops s) (hs : Shut s) :
    Shut (after ops s) := by
  induction ops generalizing s with
  | nil => exact hs
  | cons op rest ih =>
    obtain ⟨hop, hrest⟩ := h
    have hshut : (op.Feeds → ∃ fault, ((carryOut op).run s).result = .error fault) →
        Shut ((carryOut op).run s).state :=
      shut_carryOut hs op
    exact ih hrest (hshut hop)

/-- **What a closed scanner delivers.** Whatever was done with a scanner before it was closed, and
whatever has been done since that gives it nothing to deliver: each call for a token is refused,
unless the end of the whole input has been reached since the scanner was opened last. If it has
been, each call delivers the end token. Either way the call changes nothing. -/
theorem next_after_close (hmade : make master lexicon defaultMode = .ok made)
    (history ops : List Operation)
    (hclosed : StaysClosed ops (after history made).close) (rounds : Nat)
    (hs : s = after (history ++ .close :: ops) made) :
    (¬ EndReached (history ++ .close :: ops) made →
      (next rounds).run s = ⟨.error (.grammar .notOpened), s, []⟩) ∧
    (EndReached (history ++ .close :: ops) made → ∃ token, token.isEnd = true ∧
      (next rounds).run s = ⟨.ok token, s, []⟩) := by
  have hshut : Shut s := by
    rw [hs, after_append]
    exact hclosed.shut ⟨rfl, rfl⟩
  have hremembered := isSome_ended_after hmade (history ++ .close :: ops)
  rw [← hs] at hremembered
  constructor
  · intro hnot
    have hnone : s.ended = none := Option.not_isSome_iff_eq_none.mp (mt hremembered.mp hnot)
    exact next_of_closed rounds hshut.pending hnone hshut.inputs
  · intro hreached
    obtain ⟨token, htoken⟩ := Option.isSome_iff_exists.mp (hremembered.mpr hreached)
    have hend : token.isEnd = true :=
      isEnd_ended_after hmade (history ++ .close :: ops) token (hs ▸ htoken)
    exact ⟨token, hend, next_of_ended rounds hshut.pending htoken⟩

/-- Words, with line ends between them. -/
private def wordLines : Lexicon :=
  [ (none,
      [ ⟨none, ⟨.char '\n', 0, {}⟩, none⟩,
        ⟨some "ID", ⟨.repeated 1 none false (.oneOf false [.range 'a' 'z']), 0, {}⟩, none⟩ ]) ]

/-- A scanner of one line. -/
private def oneLine : Scanner :=
  { master := "a\n", lexicon := wordLines, defaultMode := none, mode := none }

/-- A scanner that was closed in the middle of its input, and asked for a mode, delivers nothing. A
scanner that had come to the end delivers the end token after it was closed. -/
theorem next_after_close_line : make "a\n" wordLines none = .ok oneLine ∧
    StaysClosed [.setMode none] (after [.start true, .next 9] oneLine).close ∧
    ((next 9).run (after [.start true, .next 9, .close, .setMode none] oneLine)).result =
      .error (.grammar .notOpened) ∧
    StaysClosed [.setMode none] (after [.start true, .next 9, .next 9] oneLine).close ∧
    ∃ token, token.isEnd = true ∧
      ((next 9).run (after [.start true, .next 9, .next 9, .close, .setMode none] oneLine)).result =
        .ok token := by
  have hmade : make "a\n" wordLines none = .ok oneLine := rfl
  have hnot : ¬ EndReached ([.start true, .next 9] ++ .close :: [.setMode none]) oneLine :=
    mt (isSome_ended_after hmade _).mpr (by decide +kernel)
  have hreached : EndReached
      ([.start true, .next 9, .next 9] ++ .close :: [.setMode none]) oneLine :=
    (isSome_ended_after hmade _).mp (by decide +kernel)
  have hearly :=
    (next_after_close hmade [.start true, .next 9] [.setMode none] ⟨nofun, trivial⟩ 9 rfl).1 hnot
  obtain ⟨token, hend, hlate⟩ :=
    (next_after_close hmade [.start true, .next 9, .next 9] [.setMode none]
      ⟨nofun, trivial⟩ 9 rfl).2 hreached
  refine ⟨hmade, ⟨nofun, trivial⟩, ?_, ⟨nofun, trivial⟩, token, hend, ?_⟩
  · exact congrArg Outcome.result hearly
  · exact congrArg Outcome.result hlate

/-- It is not so that a closed scanner delivers nothing: after the end of its input, it delivers
the end token. -/
theorem delivers_after_close :
    ¬ ∀ (master : String) (lexicon : Lexicon) (defaultMode : Mode) (made : Scanner)
    (history : List Operation) (rounds : Nat), make master lexicon defaultMode = .ok made →
      ((next rounds).run (after (history ++ [.close]) made)).result =
        .error (.grammar .notOpened) := by
  intro hall
  have hrefused := hall "a\n" wordLines none oneLine [.start true, .next 9, .next 9] 9 rfl
  have hdelivered : ((next 9).run (after ([.start true, .next 9, .next 9] ++
      [.close]) oneLine)).result.toOption.map Token.isEnd = some true := by decide +kernel
  rw [hrefused] at hdelivered
  cases hdelivered

end Scanner

end GrammarEngine
