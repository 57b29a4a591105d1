import GrammarEngine.Proofs.Parser.Stability
import GrammarEngine.Proofs.Scanner.Feed

/-!
# The order of tokens

Where the tokens of a scanner wait is spread over its push-back buffer and the entries of its
inputs, and they are moved about when a file is included and when one ends. What is ahead in a
scanner puts them in order: the token that was given back, the rest of the current input, the end of
that, the token that was kept with its parent, and so on (`Serves`). However the scanner is used,
this is what is ahead in the stream of tokens that the uses lead to.

The patterns have no routines here, so the scanner stays in its mode; the routines at the ends of
files only leave notes.

Main results:

* `endOfInput_of_included` — what happens at the end of an included file.
* `Serves.upcoming` — the next token is the one ahead.
* `Uses.order` — a scanner that is used in any way serves the stream.
-/

namespace GrammarEngine

namespace Scanner

open Lexicon (Place Piece Step Reads IsFirst)

-- ---------------------------------------------------------------------------
-- What a scanner does at the end of a file
-- ---------------------------------------------------------------------------

variable {t₀ t t' : Scanner} {s : Stream} {n : Nat}

/-- The labels that a scanner has noted. -/
def labels (t : Scanner) : List String := t.notes.map Note.label

/-- A scanner that has only left some notes. -/
structure Noted (labels : List String) (t t' : Scanner) : Prop where
  rest : t' = { t with notes := t'.notes }
  labels : t'.labels = t.labels ++ labels

/-- A routine that only leaves notes. -/
theorem perform_notes (labels : List String) (t : Scanner) :
    (perform (AtEnd.routine (labels.map .note))).Leaves t fun r t' =>
      r = .ok (none, .nothing) ∧ Noted labels t t' := by
  induction labels generalizing t with
  | nil => exact ⟨rfl, rfl, (List.append_nil _).symm⟩
  | cons label labels ih =>
    rw [List.map_cons]
    unfold AtEnd.routine perform
    rw [Run.leaves_modify_bind]
    refine (ih (noted label t)).mono fun r t' hr => ⟨hr.1, hr.2.rest, ?_⟩
    rw [hr.2.labels]
    unfold Scanner.labels noted
    rw [List.map_append, List.append_assoc]
    rfl

/-- **The end of an included file**: its routine is run with the token that was kept with the
parent, and what is left of that is delivered. -/
theorem endOfInput_of_included {done parent : Input} {below : List Input}
    (hmode : t.mode = t.defaultMode) (hinputs : t.inputs = done :: parent :: below)
    {Q : Except Fault (Option Token) → Scanner → Prop} :
    endOfInput.Leaves t Q ↔ (perform done.atEnd).Leaves
      { t with inputs := { parent with saved := none } :: below, pending := parent.saved }
      fun r t' =>
        match r with
        | .ok _ => Q (.ok t'.pending) { t' with pending := none }
        | .error fault => Q (.error fault) t' := by
  unfold endOfInput
  rw [Run.leaves_get_bind, if_neg (by simp [hmode]), hinputs]
  dsimp only
  rw [Run.leaves_emit_bind, Run.leaves_bind, Run.leaves_set, Run.continues_ok, Run.leaves_bind,
    Run.leaves_discard]
  unfold Run.Leaves
  cases ((perform done.atEnd).run _).result <;> exact Iff.rfl

-- ---------------------------------------------------------------------------
-- The tokens that wait in a scanner
-- ---------------------------------------------------------------------------

/-- A stream of which some pieces are still to be read, with the tokens that they make. -/
def Holding (lexicon : Lexicon) (mode : Mode) (s : Stream) (n : Nat) (tokens : List Token) : Prop :=
  ∃ before after pieces place, s.At before after ∧ NoCalls (before ++ after) ∧
    Reads lexicon s.name ⟨before, after, mode, []⟩ pieces place ∧ place.after = [] ∧
    pieces.length = n ∧ tokens = pieces.filterMap Piece.token

/-- What is ahead behind the current input, at whose end a routine is run, and how many rounds it
takes to get there. -/
inductive Behind (lexicon : Lexicon) (mode : Mode) : Routine → List Input → Nat → List Item → Prop
  | nothing {atEnd : Routine} : Behind lexicon mode atEnd [] 0 []
  | parent {atEnd : Routine} {parent : Input} {below : List Input} {m k : Nat} {tokens : List Token}
      {labels : List String} {items : List Item} (hatEnd : atEnd = AtEnd.routine (labels.map .note))
      (hholding : Holding lexicon mode parent.stream m tokens)
      (hbelow : Behind lexicon mode parent.atEnd below k items) :
      Behind lexicon mode atEnd (parent :: below) (m + k + 1)
        (.ending labels :: ((parent.saved.toList ++ tokens).map .token ++ items))

/-- A scanner that stays in its mode, with what is ahead in it, and how many rounds it takes to
get to the end. -/
structure Serves (t₀ t : Scanner) (n : Nat) (ahead : List Item) : Prop where
  lexicon : t.lexicon = t₀.lexicon
  defaultMode : t.defaultMode = t₀.defaultMode
  mode : t.mode = t₀.defaultMode
  modeStack : t.modeStack = []
  lineLag : t.lineLag = 0
  disk : t.disk = t₀.disk
  ended : t.ended = none
  waits : ∃ top below m tokens k items, t.inputs = top :: below ∧
    Holding t₀.lexicon t₀.defaultMode top.stream m tokens ∧
    Behind t₀.lexicon t₀.defaultMode top.atEnd below k items ∧ n = m + k ∧
      ahead = (t.pending.toList ++ tokens).map .token ++ items

/-- Patterns without routines. -/
def Unrouted (t₀ : Scanner) : Prop :=
  ∀ p ∈ (t₀.lexicon.patterns? t₀.defaultMode).getD [], p.routine = none

/-- A round at a piece of the text makes what the piece does. -/
theorem scanRound_of_step (hunrouted : Unrouted t₀) (hcurrent : t.current? = some s)
    (hlexicon : t.lexicon = t₀.lexicon) (hmode : t.mode = t₀.defaultMode)
    (hstack : t.modeStack = []) (hlag : t.lineLag = 0) {before after : List Char}
    (hat : s.At before after) (hcalls : NoCalls (before ++ after)) {piece : Piece} {place : Place}
    (hstep : Step t₀.lexicon s.name ⟨before, after, t₀.defaultMode, []⟩ piece place) :
    ∃ s' start, scanRound.Returns t piece.token ({ t with tokenStart := start }.onto s') ∧
      s'.At place.before place.after ∧ s.Steady s' ∧ place.mode = t₀.defaultMode ∧
      place.kept = [] := by
  have hplace : t.place before after = ⟨before, after, t₀.defaultMode, []⟩ := by
    unfold Scanner.place
    rw [hmode, hstack]
  obtain ⟨kind, value, hmade, htoken⟩ := hstep.makes
  obtain ⟨earlier, later, hpatterns, -⟩ := id hstep.first
  -- the pattern has no routine
  have hroutine : piece.pattern.routine = none := by
    refine hunrouted _ ?_
    rw [hpatterns]
    exact List.mem_append_right _ (List.mem_cons_self ..)
  have hmade' : some ((piece.pattern.kind, Value.text piece.found.text), t₀.defaultMode, []) =
      some ((kind, value), place.mode, place.kept) := by
    rw [← hmade]
    unfold Lexicon.made
    rw [hroutine]
  simp only [Option.some.injEq, Prod.mk.injEq] at hmade'
  obtain ⟨⟨rfl, rfl⟩, hplaceMode, hplaceKept⟩ := hmade'
  have hleaves : scanRound.Leaves t fun r t' => r = .ok piece.token ∧ ∃ s' start,
      t' = { t with tokenStart := start }.onto s' ∧ s'.At place.before place.after ∧
      s.Steady s' := by
    refine scanRound_in_text hcurrent hat hstep.left hcalls hlag
      (fun p m s' after' hfirst hafter hat' hsteady t₁ ht₁ _ => ?_) fun hnone _ _ => ?_
    · rw [hplace, hlexicon, hmode] at hfirst
      obtain ⟨rfl, rfl⟩ := hstep.first.unique hfirst
      have hafter' : place.after = after' := List.append_cancel_left (hstep.after.symm.trans hafter)
      have hbefore : place.before = before ++ piece.found.text.toList := hstep.before
      unfold produce
      rw [hroutine, hplace]
      refine ⟨congrArg Except.ok htoken.symm, s', _, ht₁, ?_, hsteady⟩
      rw [hbefore, hafter']
      exact hat'
    · rw [hplace, hlexicon, hmode] at hnone
      exact absurd hstep.first (hnone _ _)
  obtain ⟨t', hreturns, s', start, rfl, hat', hsteady⟩ := hleaves.returns
  exact ⟨s', start, hreturns, hat', hsteady, hplaceMode.symm, hplaceKept.symm⟩

/-- What a round does to a scanner with some items ahead: it passes something over, or delivers the
next token, or comes to the end of all. -/
inductive Round (t₀ t : Scanner) (n : Nat) (ahead : List Item) : Prop
  | passes {t' : Scanner} {n' : Nat} {labels : List String} {rest : List Item}
      (hround : scanRound.Returns t none t')
      (hless : n' < n) (hserves : Serves t₀ t' n' rest) (hpending : t'.pending = none)
      (hpassed : passed ahead = (labels ++ (passed rest).1, (passed rest).2))
      (hlabels : t'.labels = t.labels ++ labels) :
      Round t₀ t n ahead
  | delivers {t' : Scanner} {n' : Nat} {token : Token} {labels : List String} {rest : List Item}
      (hround : scanRound.Returns t (some token) t') (hserves : Serves t₀ t' n' rest)
      (hpending : t'.pending = none) (hpassed : passed ahead = (labels, .token token :: rest))
      (hlabels : t'.labels = t.labels ++ labels) : Round t₀ t n ahead
  | ends {t' : Scanner} {token : Token}
      (hround : scanRound.Returns t (some token) t') (hahead : ahead = [])
      (hended : t'.ended = some token) (hlabels : t'.labels = t.labels) : Round t₀ t n ahead

section Rounds

variable {top : Input} {below : List Input} {m k : Nat} {tokens : List Token} {items : List Item}

theorem inputs_onto (hinputs : t.inputs = top :: below) (s : Stream) :
    (t.onto s).inputs = { top with stream := s } :: below := by
  unfold onto
  rw [hinputs]
  rfl

/-- In the text of an input a round reads a piece of it. -/
theorem Serves.round_in_text {ahead : List Item} (h : Serves t₀ t n ahead) (hunrouted : Unrouted t₀)
    (hpending : t.pending = none) (hinputs : t.inputs = top :: below)
    {before after : List Char} {pieces : List Piece} {piece : Piece} {place place' : Place}
    (hat : top.stream.At before after) (hcalls : NoCalls (before ++ after))
    (hstep : Step t₀.lexicon top.stream.name ⟨before, after, t₀.defaultMode, []⟩ piece place)
    (hreads : Reads t₀.lexicon top.stream.name place pieces place') (hend : place'.after = [])
    (hbehind : Behind t₀.lexicon t₀.defaultMode top.atEnd below k items)
    (hn : n = pieces.length + 1 + k)
    (hahead : ahead = ((piece :: pieces).filterMap Piece.token).map .token ++ items) :
    Round t₀ t n ahead := by
  obtain ⟨s', start, hround, hat', hsteady, hmode, hkept⟩ := scanRound_of_step hunrouted
    (current?_of_inputs hinputs) h.lexicon h.mode h.modeStack h.lineLag hat hcalls hstep
  have htext : place.before ++ place.after = before ++ after := by
    rw [hstep.before, List.append_assoc, ← hstep.after]
  have hplace : (⟨place.before, place.after, t₀.defaultMode, []⟩ : Place) = place := by
    rw [← hmode, ← hkept]
  have hholding : Holding t₀.lexicon t₀.defaultMode s' pieces.length
      (pieces.filterMap Piece.token) := by
    refine ⟨place.before, place.after, pieces, place', hat', ?_, ?_, hend, rfl, rfl⟩
    · rw [htext]
      exact hcalls
    · rw [hplace, hsteady.name]
      exact hreads
  have hserves : Serves t₀ ({ t with tokenStart := start }.onto s') (pieces.length + k)
      ((pieces.filterMap Piece.token).map .token ++ items) := by
    refine ⟨h.lexicon, h.defaultMode, h.mode, h.modeStack, h.lineLag, h.disk, h.ended,
      { top with stream := s' }, below, _, _, k, items,
      inputs_onto (t := { t with tokenStart := start }) hinputs s', hholding, hbehind, rfl, ?_⟩
    show _ = (t.pending.toList ++ _).map Item.token ++ items
    rw [hpending]
    rfl
  cases htoken : piece.token with
  | none =>
    rw [htoken] at hround
    have hlabels : t.labels = t.labels ++ [] := (List.append_nil _).symm
    refine .passes hround (by omega) hserves hpending ?_ hlabels
    rw [hahead, List.filterMap_cons_none htoken, List.nil_append]
  | some token =>
    rw [htoken] at hround
    have hlabels : t.labels = t.labels ++ [] := (List.append_nil _).symm
    refine .delivers hround hserves hpending ?_ hlabels
    rw [hahead, List.filterMap_cons_some htoken, List.map_cons, List.cons_append, passed_token]

/-- At the end of an input a round goes back to the parent, or comes to the end of all. -/
theorem Serves.round_at_end {ahead : List Item} (h : Serves t₀ t n ahead)
    (hinputs : t.inputs = top :: below) {before : List Char} (hat : top.stream.At before [])
    (hbehind : Behind t₀.lexicon t₀.defaultMode top.atEnd below n ahead) : Round t₀ t n ahead := by
  have hcurrent := current?_of_inputs hinputs
  have hdefault : t.mode = t.defaultMode := h.mode.trans h.defaultMode.symm
  let s := { top.stream with cursor := none }
  have hround : ∀ Q, scanRound.Leaves t Q ↔ endOfInput.Leaves (t.onto s) Q := by
    intro Q
    rw [scanRound_leaves hcurrent hat.isOpen, Stream.upcoming?_of_end hat]
  have hinputs' := inputs_onto hinputs s
  generalize hatEnd : top.atEnd = atEnd at hbehind
  cases hbehind with
  | nothing =>
    have hleaves : scanRound.Leaves t fun r t' => r = .ok (some (.endOfInput (t.onto s).position)) ∧
        t'.ended = some (.endOfInput (t.onto s).position) ∧ t'.labels = t.labels := by
      rw [hround, endOfInput_of_last (t := t.onto s) hdefault hinputs']
      exact ⟨rfl, rfl, rfl⟩
    obtain ⟨t', hreturns, hended, hlabels⟩ := hleaves.returns
    exact .ends hreturns rfl hended hlabels
  | @parent _ parent below m k tokens labels items hnotes hholding hbelow =>
    have hleaves : scanRound.Leaves t fun r t' => r = .ok parent.saved ∧ t'.pending = none ∧
        t'.labels = t.labels ++ labels ∧ Serves t₀ t' (m + k) (tokens.map .token ++ items) := by
      rw [hround, endOfInput_of_included (t := t.onto s) hdefault hinputs']
      dsimp only
      rw [hatEnd, hnotes]
      refine (perform_notes labels _).mono fun r t' hr => ?_
      obtain ⟨rfl, hnoted⟩ := hr
      dsimp only
      have hlabels := hnoted.labels
      rw [hnoted.rest]
      refine ⟨rfl, rfl, hlabels, h.lexicon, h.defaultMode, h.mode, h.modeStack, h.lineLag, h.disk,
        h.ended, { parent with saved := none }, below, m, tokens, k, items, rfl, hholding, hbelow,
        rfl, rfl⟩
    obtain ⟨t', hreturns, hpending', hlabels, hserves⟩ := hleaves.returns
    cases hsaved : parent.saved with
    | none =>
      rw [hsaved] at hreturns
      exact .passes hreturns (Nat.lt_succ_self _) hserves hpending' (passed_ending ..) hlabels
    | some token =>
      rw [hsaved] at hreturns
      refine .delivers hreturns hserves hpending' ?_ hlabels
      rw [passed_ending, Option.toList_some, List.singleton_append, List.map_cons, List.cons_append,
        passed_token, List.append_nil]

theorem Serves.round (hunrouted : Unrouted t₀) {ahead : List Item} (h : Serves t₀ t n ahead)
    (hpending : t.pending = none) : Round t₀ t n ahead := by
  obtain ⟨top, below, m, tokens, k, items, hinputs, hholding, hbehind, hn, hahead⟩ := h.waits
  rw [hpending, Option.toList_none, List.nil_append] at hahead
  obtain ⟨before, after, pieces, place, hat, hcalls, hreads, hend, rfl, rfl⟩ := hholding
  cases hreads with
  | @cons _ place₁ _ piece pieces hstep hrest =>
    exact h.round_in_text hunrouted hpending hinputs hat hcalls hstep hrest hend hbehind hn hahead
  | nil =>
    change after = [] at hend
    subst hend
    obtain rfl : n = k := hn.trans (Nat.zero_add k)
    obtain rfl : ahead = items := hahead
    exact h.round_at_end hinputs hat hbehind

end Rounds

-- ---------------------------------------------------------------------------
-- The next token
-- ---------------------------------------------------------------------------

/-- What asking for the next token comes to, with some items ahead. -/
inductive Upcoming (t₀ : Scanner) (ask : Nat → Run Scanner Token) (t : Scanner)
    (ahead : List Item) : Prop
  | token {t' : Scanner} {n : Nat} {token : Token} {labels : List String} {rest : List Item}
      (hpassed : passed ahead = (labels, .token token :: rest))
      (hyields : Run.Yields ask t token t') (hserves : Serves t₀ t' n rest)
      (hpending : t'.pending = none) (hlabels : t'.labels = t.labels ++ labels) :
      Upcoming t₀ ask t ahead
  | ended {t' : Scanner} {token : Token} (hpassed : (passed ahead).2 = [])
      (hyields : Run.Yields ask t token t') (hended : t'.ended = some token)
      (hlabels : t'.labels = t.labels ++ (passed ahead).1) : Upcoming t₀ ask t ahead

variable {ahead : List Item}

/-- Round by round the scanner gets to the next token. -/
theorem Serves.scans (hunrouted : Unrouted t₀) (h : Serves t₀ t n ahead)
    (hpending : t.pending = none) : Upcoming t₀ (Run.repeated scanRound) t ahead := by
  induction n using Nat.strongRecOn generalizing t ahead with
  | _ n ih =>
    cases h.round hunrouted hpending with
    | delivers hround hserves hpending' hpassed hlabels =>
      exact .token hpassed (yields_of_round_some hround) hserves hpending' hlabels
    | ends hround hahead hended hlabels =>
      subst hahead
      exact .ended rfl (yields_of_round_some hround) hended (hlabels.trans (List.append_nil _).symm)
    | passes hround hless hserves hpending' hpassed hlabels =>
      cases ih _ hless hserves hpending' with
      | token hpassed' hyields hserves' hpending'' hlabels' =>
        rw [hpassed'] at hpassed
        refine .token hpassed (yields_of_round_none hround hyields) hserves' hpending'' ?_
        rw [hlabels', hlabels, List.append_assoc]
      | ended hpassed' hyields hended hlabels' =>
        refine .ended ?_ (yields_of_round_none hround hyields) hended ?_
        · rw [hpassed]
          exact hpassed'
        · rw [hlabels', hlabels, hpassed, List.append_assoc]

/-- **The next token** is the one ahead, be it in the push-back buffer or still to be scanned. -/
theorem Serves.upcoming (hunrouted : Unrouted t₀) (h : Serves t₀ t n ahead) :
    Upcoming t₀ next t ahead := by
  obtain ⟨top, below, m, tokens, k, items, hinputs, hholding, hbehind, hn, hahead⟩ := id h.waits
  have hopen : t.inputs ≠ [] := by
    rw [hinputs]
    exact List.cons_ne_nil _ _
  cases hpending : t.pending with
  | some token =>
    -- it had been given back
    rw [hpending, Option.toList_some, List.singleton_append, List.map_cons, List.cons_append]
      at hahead
    have hpassed : passed ahead = ([], .token token :: (tokens.map .token ++ items)) := by
      rw [hahead, passed_token]
    have hserves : Serves t₀ { t with pending := none } n (tokens.map .token ++ items) :=
      ⟨h.lexicon, h.defaultMode, h.mode, h.modeStack, h.lineLag, h.disk, h.ended, top, below, m,
        tokens, k, items, hinputs, hholding, hbehind, hn, rfl⟩
    exact .token hpassed (yields_pending hpending) hserves rfl (List.append_nil _).symm
  | none =>
    cases h.scans hunrouted hpending with
    | token hpassed hyields hserves hpending' hlabels =>
      exact .token hpassed (next_of_repeated hpending h.ended hopen hyields) hserves
        hpending' hlabels
    | ended hpassed hyields hended hlabels =>
      exact .ended hpassed (next_of_repeated hpending h.ended hopen hyields) hended hlabels

/-- A token that was delivered was the one ahead. -/
theorem Serves.of_next {rounds : Nat} {token : Token}
    (h : Serves t₀ t n ahead) (hunrouted : Unrouted t₀)
    (hnext : (next rounds).Returns t token t') (hended : t'.ended = none) :
    ∃ n' labels rest, passed ahead = (labels, .token token :: rest) ∧ Serves t₀ t' n' rest ∧
      t'.labels = t.labels ++ labels := by
  -- with enough rounds the token is the one ahead, so it is with these
  have hsame : ∀ {token' : Token} {t'' : Scanner}, Run.Yields Scanner.next t token' t'' →
      token = token' ∧ t' = t'' := by
    intro token' t'' hyields
    rcases stable_next.returns_or_exhausted hyields rounds with hreturns | hexhausted
    · exact hnext.unique hreturns
    · cases hexhausted.of_returns hnext
  cases h.upcoming hunrouted with
  | token hpassed hyields hserves _ hlabels =>
    obtain ⟨rfl, rfl⟩ := hsame hyields
    exact ⟨_, _, _, hpassed, hserves, hlabels⟩
  | ended _ hyields hended' =>
    obtain ⟨rfl, rfl⟩ := hsame hyields
    rw [hended] at hended'
    cases hended'

-- ---------------------------------------------------------------------------
-- Giving back and including
-- ---------------------------------------------------------------------------

theorem returns_pushBack {token : Token} (hpending : t.pending = none)
    (hback : (pushBack token).Returns t () t') : t' = { t with pending := some token } := by
  obtain ⟨t₁, t₂, hget, hback⟩ := Run.returns_bind.mp hback
  obtain ⟨rfl, rfl⟩ := Run.returns_get.mp hget
  rw [hpending] at hback
  exact (Run.returns_set.mp hback).symm

/-- A token that is given back is ahead again. -/
theorem Serves.pushBack {token : Token} (h : Serves t₀ t n ahead) (hpending : t.pending = none)
    (hback : (pushBack token).Returns t () t') : Serves t₀ t' n (.token token :: ahead) := by
  obtain rfl := returns_pushBack hpending hback
  obtain ⟨top, below, m, tokens, k, items, hinputs, hholding, hbehind, hn, rfl⟩ := h.waits
  refine ⟨h.lexicon, h.defaultMode, h.mode, h.modeStack, h.lineLag, h.disk, h.ended, top, below, m,
    tokens, k, items, hinputs, hholding, hbehind, hn, ?_⟩
  rw [hpending]
  rfl

theorem returns_openFile {name id complaint : String} {position : Option Position} {stream : Stream}
    (h : (openFile name id complaint position).Returns t stream t') :
    Stream.ofFile? t.disk name = .ok stream ∧ t' = t := by
  obtain ⟨t₁, t₂, hget, h⟩ := Run.returns_bind.mp h
  obtain ⟨rfl, rfl⟩ := Run.returns_get.mp hget
  split at h
  · next found hfound =>
    obtain ⟨_, t₃, hemit, h⟩ := Run.returns_bind.mp h
    obtain rfl := Run.returns_emit.mp hemit
    obtain ⟨rfl, rfl⟩ := Run.returns_pure.mp h
    exact ⟨hfound, rfl⟩
  · split at h
    · exact absurd h not_returns_errorAt
    · exact absurd h Run.not_returns_fail

/-- What including a file makes of a scanner with some inputs. -/
theorem returns_includeFile {name full : String} {position : Option Position} {atEnd : Routine}
    {top : Input} {below : List Input}
    (hinputs : t.inputs = top :: below) (h : (includeFile name position atEnd).Returns t full t') :
    ∃ stream, Stream.ofFile? t.disk full = .ok stream ∧ t' = { t with
      inputs := { stream := stream, atEnd := atEnd } :: { top with saved := t.pending } :: below
      pending := none } := by
  obtain ⟨t₁, t₂, hget, h⟩ := Run.returns_bind.mp h
  obtain ⟨rfl, rfl⟩ := Run.returns_get.mp hget
  dsimp only at h
  split at h
  · exact absurd h not_returns_errorAt
  · obtain ⟨stream, t₃, hopen, h⟩ := Run.returns_bind.mp h
    obtain ⟨hfile, rfl⟩ := returns_openFile hopen
    obtain ⟨_, t₄, hmodify, h⟩ := Run.returns_bind.mp h
    obtain rfl := Run.returns_modify.mp hmodify
    obtain ⟨rfl, rfl⟩ := Run.returns_pure.mp h
    refine ⟨stream, hfile, ?_⟩
    rw [hinputs]

/-- A file that is opened is at its beginning. -/
theorem ofFile?_fresh {disk : Disk} {name : String} {text : List Char} {stream : Stream}
    (h : Stream.ofFile? disk name = .ok stream) (hread : disk.read name = .ok text) :
    stream.name = name ∧ stream.unread = text ∧ stream.isClosed = false ∧ stream.cursor = none ∧
      stream.lineNo = 0 := by
  obtain ⟨text', hread', h⟩ := bind_eq_ok.1 h
  rw [hread] at hread'
  cases hread'
  cases h
  exact ⟨rfl, rfl, rfl, rfl, rfl⟩

/-- A source at its beginning holds all of its tokens. -/
theorem Source.Sound.holding {lexicon : Lexicon} {mode : Mode} {source : Source}
    (h : source.Sound lexicon mode) (hname : s.name = source.name) (htext : s.unread = source.text)
    (hopen : s.isClosed = false) (hcursor : s.cursor = none) (hlineNo : s.lineNo = 0) :
    ∃ n, Holding lexicon mode s n source.tokens := by
  obtain ⟨pieces, place, hreads, hend, htokens⟩ := h.reads
  refine ⟨pieces.length, [], s.unread, pieces, place, .atStart hopen hcursor hlineNo, ?_, ?_, hend,
    rfl, htokens⟩
  · rw [htext]
    exact h.noCalls
  · rw [hname, htext]
    exact hreads

/-- An included file is put in front of all that is ahead. -/
theorem Serves.includeFile {source : Source} {labels : List String} {name : String}
    {position : Option Position}
    (h : Serves t₀ t n ahead) (hsound : source.Sound t₀.lexicon t₀.defaultMode)
    (hread : t₀.disk.read source.name = .ok source.text)
    (hinclude :
      (includeFile name position (AtEnd.routine (labels.map .note))).Returns t source.name t') :
    ∃ n', Serves t₀ t' n' (source.tokens.map .token ++ .ending labels :: ahead) := by
  obtain ⟨top, below, m, tokens, k, items, hinputs, hholding, hbehind, hn, rfl⟩ := h.waits
  obtain ⟨stream, hfile, rfl⟩ := returns_includeFile hinputs hinclude
  rw [h.disk] at hfile
  obtain ⟨hname, htext, hopen, hcursor, hlineNo⟩ := ofFile?_fresh hfile hread
  obtain ⟨m', hholding'⟩ := hsound.holding hname htext hopen hcursor hlineNo
  exact ⟨m' + (m + k + 1), h.lexicon, h.defaultMode, h.mode, h.modeStack, h.lineLag, h.disk,
    h.ended, _, _, m', source.tokens, _, _, rfl, hholding', .parent rfl hholding hbehind, rfl, rfl⟩

/-- A scanner that was opened has one stream, of a file or a text, and is at its beginning. -/
theorem opened_of_start {readsLabel : Bool} (hstart : (start readsLabel).Returns t₀ () t) :
    ∃ stream, t = { t₀.opened stream with readsLabel := readsLabel } ∧ stream.isClosed = false ∧
      stream.cursor = none ∧ stream.lineNo = 0 := by
  cases readsLabel with
  | true => exact ⟨_, start_label_returns hstart, rfl, rfl, rfl⟩
  | false =>
    obtain ⟨stream, hfile, rfl⟩ := start_returns.mp hstart
    obtain ⟨text, hread, -⟩ := bind_eq_ok.1 hfile
    obtain ⟨-, -, hopen, hcursor, hlineNo⟩ := ofFile?_fresh hfile hread
    exact ⟨stream, rfl, hopen, hcursor, hlineNo⟩

/-- Then it has the tokens of that ahead. -/
theorem serves_opened {source : Source} {readsLabel : Bool}
    (hstart : (start readsLabel).Returns t₀ () t)
    (hcurrent : t.current? = some s) (hname : source.name = s.name) (htext : source.text = s.unread)
    (hsound : source.Sound t₀.lexicon t₀.defaultMode) :
    ∃ n, Serves t₀ t n (source.tokens.map .token) := by
  obtain ⟨stream, rfl, hopen, hcursor, hlineNo⟩ := opened_of_start hstart
  obtain rfl : stream = s := Option.some.inj hcurrent
  obtain ⟨n, hholding⟩ := hsound.holding hname.symm htext.symm hopen hcursor hlineNo
  refine ⟨n, rfl, rfl, rfl, rfl, rfl, rfl, rfl, { stream := stream }, [], n, source.tokens, 0, [],
    rfl, hholding, .nothing, rfl, ?_⟩
  exact (List.append_nil _).symm

-- ---------------------------------------------------------------------------
-- Using a scanner
-- ---------------------------------------------------------------------------

/-- A scanner is opened, and is used in any way: it is asked for tokens, it is given back the token
that it delivered last, and it includes files at whose ends notes are left. All files can be read to
their ends, and the end of the whole input has not been delivered. -/
inductive Uses (t₀ : Scanner) (main : Source) : List Act → Scanner → Prop
  | opened {t : Scanner} {s : Stream} {readsLabel : Bool}
      (hstart : (start readsLabel).Returns t₀ () t)
      (hcurrent : t.current? = some s) (hname : main.name = s.name) (htext : main.text = s.unread)
      (hsound : main.Sound t₀.lexicon t₀.defaultMode) : Uses t₀ main [] t
  | next {acts : List Act} {t t' : Scanner} {rounds : Nat} {token : Token} (h : Uses t₀ main acts t)
      (hnext : (next rounds).Returns t token t') (hended : t'.ended = none) :
      Uses t₀ main (acts ++ [.delivered token (t'.labels.drop t.labels.length)]) t'
  | pushBack {acts : List Act} {t t' : Scanner} {token : Token} (h : Uses t₀ main acts t)
      (hlast : acts.reverse.findSome? Act.delivered? = some token) (hpending : t.pending = none)
      (hback : (pushBack token).Returns t () t') : Uses t₀ main (acts ++ [.returned token]) t'
  | includeFile {acts : List Act} {t t' : Scanner} {source : Source} {labels : List String}
      {name : String} {position : Option Position}
      (h : Uses t₀ main acts t) (hsound : source.Sound t₀.lexicon t₀.defaultMode)
      (hread : t₀.disk.read source.name = .ok source.text)
      (hinclude :
        (includeFile name position (AtEnd.routine (labels.map .note))).Returns t source.name t') :
      Uses t₀ main (acts ++ [.included source labels]) t'

variable {main : Source} {acts : List Act}

/-- A scanner serves the stream that its uses lead to. -/
theorem Uses.serves (hunrouted : Unrouted t₀) (h : Uses t₀ main acts t) :
    ∃ feed n, acts.foldlM Feed.act (.opened main) = some feed ∧ Serves t₀ t n feed.ahead := by
  induction h with
  | opened hstart hcurrent hname htext hsound =>
    obtain ⟨n, hserves⟩ := serves_opened hstart hcurrent hname htext hsound
    exact ⟨.opened main, n, rfl, hserves⟩
  | @next acts t t' rounds token _ hnext hended ih =>
    obtain ⟨feed, n, hfeed, hserves⟩ := ih
    obtain ⟨n', labels, rest, hpassed, hserves', hlabels⟩ := hserves.of_next hunrouted hnext hended
    refine ⟨⟨feed.past ++ [token], rest⟩, n', foldlM_snoc.mpr ⟨feed, hfeed, ?_⟩, hserves'⟩
    rw [hlabels, List.drop_left, Feed.act, hpassed]
    exact if_pos ⟨rfl, rfl⟩
  | @pushBack acts t t' token _ _ hpending hback ih =>
    obtain ⟨feed, n, hfeed, hserves⟩ := ih
    exact ⟨⟨Feed.without token feed.past, .token token :: feed.ahead⟩, n,
      foldlM_snoc.mpr ⟨feed, hfeed, rfl⟩, hserves.pushBack hpending hback⟩
  | includeFile _ hsound hread hinclude ih =>
    obtain ⟨feed, n, hfeed, hserves⟩ := ih
    obtain ⟨n', hserves'⟩ := hserves.includeFile hsound hread hinclude
    exact ⟨{ feed with ahead := _ }, n', foldlM_snoc.mpr ⟨feed, hfeed, rfl⟩, hserves'⟩

/-- Every token that was delivered, or is ahead, is one of the files. -/
theorem Uses.drawn (h : Uses t₀ main acts t) {feed : Feed}
    (hfeed : acts.foldlM Feed.act (.opened main) = some feed) : AllDrawn main acts feed := by
  induction h generalizing feed with
  | opened _ _ _ _ hsound =>
    obtain rfl := Option.some.inj hfeed
    refine ⟨fun _ _ h => absurd h List.not_mem_nil, fun token htoken => ?_⟩
    obtain ⟨token', htoken', heq⟩ := List.mem_map.mp htoken
    obtain rfl := Item.token.inj heq
    exact ⟨main, List.mem_cons_self .., hsound.bears htoken'⟩
  | next _ _ _ ih =>
    obtain ⟨before, hbefore, hact⟩ := foldlM_snoc.mp hfeed
    exact (ih hbefore).act hact (fun _ heq => by cases heq) fun _ _ heq => by cases heq
  | @pushBack acts _ _ token _ hlast _ _ ih =>
    obtain ⟨before, hbefore, hact⟩ := foldlM_snoc.mp hfeed
    -- the token that was delivered last
    have hdelivered : ∃ labels, .delivered token labels ∈ acts := by
      obtain ⟨a, ha, hlast⟩ := List.exists_of_findSome?_eq_some hlast
      cases a with
      | delivered token' labels =>
        obtain rfl := Option.some.inj hlast
        exact ⟨labels, List.mem_reverse.mp ha⟩
      | returned => cases hlast
      | included => cases hlast
    refine (ih hbefore).act hact (fun token' heq => ?_) fun _ _ heq => by cases heq
    obtain rfl := Act.returned.inj heq
    exact hdelivered
  | includeFile _ hsound _ _ ih =>
    obtain ⟨before, hbefore, hact⟩ := foldlM_snoc.mp hfeed
    refine (ih hbefore).act hact (fun _ heq => by cases heq) fun source' labels' heq token htoken =>
      ?_
    obtain ⟨rfl, -⟩ := Act.included.inj heq
    exact hsound.bears htoken

/-- All that was noted was noted when a token was delivered. -/
theorem Uses.noted (hunrouted : Unrouted t₀) (h : Uses t₀ main acts t) :
    t.labels = t₀.labels ++ acts.flatMap Act.noted := by
  induction h with
  | opened hstart =>
    obtain ⟨stream, rfl, -⟩ := opened_of_start hstart
    exact (List.append_nil _).symm
  | @next acts t t' _ token huses hnext hended ih =>
    obtain ⟨feed, n, -, hserves⟩ := huses.serves hunrouted
    obtain ⟨-, labels, -, -, -, hlabels⟩ := hserves.of_next hunrouted hnext hended
    rw [List.flatMap_append, ← List.append_assoc, ← ih, List.flatMap_singleton, Act.noted, hlabels,
      List.drop_left]
  | @pushBack acts t t' token _ _ hpending hback ih =>
    obtain rfl := returns_pushBack hpending hback
    rw [List.flatMap_append, List.flatMap_singleton, Act.noted, List.append_nil, ← ih]
    rfl
  | @includeFile acts t t' source labels _ _ huses _ _ hinclude ih =>
    obtain ⟨feed, n, -, hserves⟩ := huses.serves hunrouted
    obtain ⟨top, below, -, -, -, -, hinputs, -⟩ := hserves.waits
    obtain ⟨stream, -, rfl⟩ := returns_includeFile hinputs hinclude
    rw [List.flatMap_append, List.flatMap_singleton, Act.noted, List.append_nil, ← ih]
    rfl

/-- The next call for a token is what a stream foretells: the token ahead, once the labels of the
files that end in front of it have been noted, or else the end of the whole input. -/
def Feed.Foretells (feed : Feed) (t : Scanner) : Prop :=
  match passed feed.ahead with
  | (labels, .token token :: _) =>
    ∃ t', Run.Yields next t token t' ∧ t'.ended = none ∧ t'.labels = t.labels ++ labels
  | (labels, _) =>
    ∃ token t', Run.Yields next t token t' ∧ t'.ended = some token ∧ t'.labels = t.labels ++ labels

/-- **Inclusion and push-back keep the order.** However a scanner is used, its deliveries follow the
stream in which each included file stands in front of all that was ahead when it was included: each
token comes in its turn, and the routine at the end of a file is run behind its last token and in
front of the next one of the including file, and at no other time. Each token is one of a file that
was read, with the name of that file and its position there. The next call goes on like this. -/
theorem Uses.order (hunrouted : Unrouted t₀) (h : Uses t₀ main acts t) :
    ∃ feed, acts.foldlM Feed.act (.opened main) = some feed ∧ feed.Foretells t ∧
      t.labels = t₀.labels ++ acts.flatMap Act.noted ∧
      ∀ token labels, .delivered token labels ∈ acts → Drawn main acts token := by
  obtain ⟨feed, n, hfeed, hserves⟩ := h.serves hunrouted
  refine ⟨feed, hfeed, ?_, h.noted hunrouted, (h.drawn hfeed).delivered⟩
  unfold Feed.Foretells
  cases hserves.upcoming hunrouted with
  | token hpassed hyields hserves' _ hlabels =>
    rw [hpassed]
    exact ⟨_, hyields, hserves'.ended, hlabels⟩
  | ended hpassed hyields hended hlabels =>
    have hnothing : passed feed.ahead = ((passed feed.ahead).1, []) := Prod.ext rfl hpassed
    rw [hnothing]
    exact ⟨_, _, hyields, hended, hlabels⟩

-- ---------------------------------------------------------------------------
-- Files that end inside of each other
-- ---------------------------------------------------------------------------

/-- Blanks and words. -/
private def spaced : Lexicon :=
  [(none, [⟨none, ⟨.repeated 1 none false (.oneOf false [.char ' ', .char '\n']), 0, {}⟩, none⟩,
    ⟨some "ID", ⟨.repeated 1 none false (.oneOf false [.range 'a' 'z']), 0, {}⟩, none⟩])]

private theorem modal_spaced : spaced.Modal := by
  refine Lexicon.modal_of_posts fun entry hentry p hp => .inl ?_
  obtain rfl := List.mem_singleton.mp hentry
  simp only [List.mem_cons, List.not_mem_nil, or_false] at hp
  rcases hp with rfl | rfl <;> rfl

/-- The token of a word. -/
private def word (file text : String) (line column : Int) : Token :=
  ⟨"ID", .text text, some ⟨file, line, column⟩⟩

/-- A file of three words. -/
private def outer : Source :=
  ⟨"outer", "a b c\n".toList, [word "outer" "a" 1 1, word "outer" "b" 1 3, word "outer" "c" 1 5]⟩

/-- A file of two lines. -/
private def inner : Source :=
  ⟨"inner", "x\ny\n".toList, [word "inner" "x" 1 1, word "inner" "y" 2 1]⟩

/-- A file of one word. -/
private def innermost : Source := ⟨"innermost", "z\n".toList, [word "innermost" "z" 1 1]⟩

/-- A scanner of three files. -/
private def nesting : Scanner where
  master := "outer"
  lexicon := spaced
  defaultMode := none
  mode := none
  disk := ⟨[(Location.ofName "outer", .text "a b c\n"), (Location.ofName "inner", .text "x\ny\n"),
    (Location.ofName "innermost", .text "z\n")]⟩

/-- What is done with it: a token is given back, and a file is included in front of it, twice. -/
private def doings : List (Scanner → Scanner) :=
  let ask (t : Scanner) := ((next 9).run t).state
  let giveBack (token : Token) (t : Scanner) := ((pushBack token).run t).state
  let go (name label : String) (t : Scanner) :=
    ((includeFile name none (AtEnd.routine ([label].map .note))).run t).state
  [ fun t => ((start false).run t).state, ask, ask, giveBack (word "outer" "b" 1 3),
    go "inner" "end of inner", ask, giveBack (word "inner" "x" 1 1),
    go "innermost" "end of innermost", ask, ask, ask, ask ]

/-- The scanner after some of what is done to it. -/
private def nestingAfter : Nat → Scanner
  | 0 => nesting
  | n + 1 => doings.getD n id (nestingAfter n)

private theorem sound_of_text (source : Source) (h : consumed? 9 9 ((start true).run
      { nesting with master := String.ofList source.text, label := source.name }).state =
      some source.tokens)
    (hcalls : NoCalls source.text) : source.Sound nesting.lexicon nesting.defaultMode := by
  let alone : Scanner := { nesting with master := String.ofList source.text, label := source.name }
  have htext : alone.master.toList = source.text := String.toList_ofList
  have hstart : (start true).Returns alone () ((start true).run alone).state := ⟨_, rfl⟩
  rw [← htext] at hcalls
  have hsound := Source.sound_of_consumed modal_spaced hcalls hstart h
  rw [htext] at hsound
  exact hsound

/-- A delivery with the labels that were noted. -/
private theorem Uses.asked {rounds : Nat} {token : Token} {labels : List String}
    (h : Uses t₀ main acts t)
    (hnext : (Scanner.next rounds).Returns t token t') (hended : t'.ended = none)
    (hlabels : t'.labels.drop t.labels.length = labels) :
    Uses t₀ main (acts ++ [.delivered token labels]) t' := by
  rw [← hlabels]
  exact .next h hnext hended

/-- What is done, as it is told afterwards. -/
private def nestingActs : List Act :=
  [ .delivered (word "outer" "a" 1 1) [], .delivered (word "outer" "b" 1 3) [],
    .returned (word "outer" "b" 1 3), .included inner ["end of inner"],
    .delivered (word "inner" "x" 1 1) [], .returned (word "inner" "x" 1 1),
    .included innermost ["end of innermost"], .delivered (word "innermost" "z" 1 1) [],
    .delivered (word "inner" "x" 1 1) ["end of innermost"], .delivered (word "inner" "y" 2 1) [],
    .delivered (word "outer" "b" 1 3) ["end of inner"] ]

private theorem uses_nesting : Uses nesting outer nestingActs (nestingAfter 12) := by
  have houter := sound_of_text outer (by decide +kernel) (by decide +kernel)
  have hinner := sound_of_text inner (by decide +kernel) (by decide +kernel)
  have hinnermost := sound_of_text innermost (by decide +kernel) (by decide +kernel)
  have hask : ∀ {acts : List Act} {n : Nat} (token : Token) (labels : List String),
      Uses nesting outer acts (nestingAfter n) →
      ((next 9).run (nestingAfter n)).result.toOption = some token →
      ((next 9).run (nestingAfter n)).state.ended = none →
      ((next 9).run (nestingAfter n)).state.labels.drop (nestingAfter n).labels.length = labels →
      Uses nesting outer (acts ++ [.delivered token labels])
        ((next 9).run (nestingAfter n)).state :=
    fun token labels h hresult hended hlabels =>
      h.asked (Run.returns_of_result hresult) hended hlabels
  have hgive : ∀ {acts : List Act} {n : Nat} (token : Token),
      Uses nesting outer acts (nestingAfter n) →
      acts.reverse.findSome? Act.delivered? = some token → (nestingAfter n).pending = none →
      Uses nesting outer (acts ++ [.returned token])
        ((pushBack token).run (nestingAfter n)).state := by
    intro acts n token h hlast hpending
    refine h.pushBack hlast hpending
      (Run.returns_bind.mpr ⟨_, _, Run.returns_get.mpr ⟨rfl, rfl⟩, ?_⟩)
    rw [pushBack, Run.run_bind, Run.run_get]
    dsimp only
    rw [hpending]
    exact Run.returns_set.mpr rfl
  have hgo : ∀ {acts : List Act} {n : Nat} {source : Source} (name label : String),
      Uses nesting outer acts (nestingAfter n) → source.Sound nesting.lexicon nesting.defaultMode →
      nesting.disk.read source.name = .ok source.text →
      ((includeFile name none (AtEnd.routine ([label].map .note))).run
        (nestingAfter n)).result.toOption = some source.name →
        Uses nesting outer (acts ++ [.included source [label]])
          ((includeFile name none (AtEnd.routine ([label].map .note))).run
            (nestingAfter n)).state :=
    fun name label h hsound hread hresult =>
      h.includeFile hsound hread (Run.returns_of_result hresult)
  have hstart : (start false).Returns nesting () (nestingAfter 1) :=
    Run.returns_of_result (by decide +kernel)
  have hcurrent :=
    (Option.some_get (show (nestingAfter 1).current?.isSome = true by decide +kernel)).symm
  have h₁ : Uses nesting outer [] (nestingAfter 1) :=
    .opened hstart hcurrent (by decide +kernel) (by decide +kernel) houter
  have h₂ : Uses nesting outer _ (nestingAfter 2) :=
    hask (word "outer" "a" 1 1) [] h₁ (by decide +kernel) (by decide +kernel) (by decide +kernel)
  have h₃ : Uses nesting outer _ (nestingAfter 3) :=
    hask (word "outer" "b" 1 3) [] h₂ (by decide +kernel) (by decide +kernel) (by decide +kernel)
  have h₄ : Uses nesting outer _ (nestingAfter 4) :=
    hgive (word "outer" "b" 1 3) h₃ rfl (by decide +kernel)
  have h₅ : Uses nesting outer _ (nestingAfter 5) :=
    hgo "inner" "end of inner" h₄ hinner rfl (by decide +kernel)
  have h₆ : Uses nesting outer _ (nestingAfter 6) :=
    hask (word "inner" "x" 1 1) [] h₅ (by decide +kernel) (by decide +kernel) (by decide +kernel)
  have h₇ : Uses nesting outer _ (nestingAfter 7) :=
    hgive (word "inner" "x" 1 1) h₆ rfl (by decide +kernel)
  have h₈ : Uses nesting outer _ (nestingAfter 8) :=
    hgo "innermost" "end of innermost" h₇ hinnermost rfl (by decide +kernel)
  have h₉ : Uses nesting outer _ (nestingAfter 9) := hask (word "innermost" "z" 1 1) [] h₈
    (by decide +kernel) (by decide +kernel) (by decide +kernel)
  have h₁₀ : Uses nesting outer _ (nestingAfter 10) := hask (word "inner" "x" 1 1)
    ["end of innermost"] h₉ (by decide +kernel) (by decide +kernel) (by decide +kernel)
  have h₁₁ : Uses nesting outer _ (nestingAfter 11) :=
    hask (word "inner" "y" 2 1) [] h₁₀ (by decide +kernel) (by decide +kernel) (by decide +kernel)
  exact hask (word "outer" "b" 1 3) ["end of inner"] h₁₁ (by decide +kernel) (by decide +kernel)
    (by decide +kernel)

/-- Two files are included one in the other, each in front of a token that was given back. -/
theorem order_nesting : Unrouted nesting ∧ Uses nesting outer nestingActs (nestingAfter 12) ∧
    ∃ feed,
      nestingActs.foldlM Feed.act (.opened outer) = some feed ∧ feed.Foretells (nestingAfter 12) ∧
      (nestingAfter 12).labels = nesting.labels ++ nestingActs.flatMap Act.noted ∧
      ∀ token labels, .delivered token labels ∈ nestingActs → Drawn outer nestingActs token := by
  have hunrouted : Unrouted nesting := by
    intro p hp
    change p ∈ [_, _] at hp
    simp only [List.mem_cons, List.not_mem_nil, or_false] at hp
    rcases hp with rfl | rfl <;> rfl
  exact ⟨hunrouted, uses_nesting, Uses.order hunrouted uses_nesting⟩

end Scanner

end GrammarEngine
