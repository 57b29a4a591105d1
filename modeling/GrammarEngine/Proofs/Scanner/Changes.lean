import GrammarEngine.Proofs.Scanner.Confined
import GrammarEngine.Proofs.Scanner.Reopening
import GrammarEngine.Proofs.Scanner.Transcript
import Mathlib.Logic.Relation

/-!
# How a scanner changes

Besides work at the cursor, a scanner does a few things only, and each of them touches few of its
fields: modes are switched and kept, files are included and left, a token is pushed back and
delivered (`Changes`). All that a routine or a scan does is a sequence of such changes, whether it
ends with a result or a fault. The one exception is the round of a scan that comes to the end of the
last input (`AtLastEnd`): it makes the scanner remember that end.

So an invariant of scanners is shown by looking at each change once (`after_invariant`).

Main results:

* `changes_perform`, `changes_scanAtCursor` — routines and scanning change a scanner step by step.
* `scanRound_changes` — so does a round, unless it is at the end of the last input.
* `next_calls` — so does a call for a token, unless it comes to that end.
* `turns_carryOut` — so do operations.
* `after_invariant` — what every change keeps.
-/

namespace GrammarEngine

open Run Relation

namespace Scanner

variable {α : Type} {s s₀ t u : Scanner}

-- ---------------------------------------------------------------------------
-- Changes
-- ---------------------------------------------------------------------------

/-- One change of a scanner. -/
inductive Changes (s : Scanner) : Scanner → Prop
  | busied {t : Scanner} (h : Busied s t) : Changes s t
  | switched {mode : Mode} {start : Option Position} (hmode : (s.lexicon.patterns? mode).isSome) :
    Changes s { s with mode := mode, modeStart := start }
  | pushed {mode : Mode} {start : Option Position} (hmode : (s.lexicon.patterns? mode).isSome) :
    Changes s { s with mode := mode, modeStart := start, modeStack := s.mode :: s.modeStack }
  | popped {mode : Mode} {below : List Mode} (hstack : s.modeStack = mode :: below) :
    Changes s { s with modeStack := below }
  | included {name : String} {stream : Stream} {atEnd : Routine}
      (hfile : Stream.ofFile? s.disk name = .ok stream)
    (hnew : ∀ input ∈ s.inputs, input.stream.location? ≠ stream.location?) :
      Changes s (s.including stream atEnd)
  | pushedBack {token : Token} (hpending : s.pending = none) :
      Changes s { s with pending := some token }
  | resumed {done parent : Input} {below : List Input}
      (hinputs : s.inputs = done :: parent :: below) :
    Changes s { s with inputs := { parent with saved := none } :: below, pending := parent.saved }
  | delivered : Changes s { s with pending := none }

/-- Changes one after the other. -/
abbrev Onward : Scanner → Scanner → Prop := ReflTransGen Changes

/-- Confined work changes a scanner step by step. -/
theorem Confined.changes {x : Run Scanner α} (h : Confined x) : Keeps (Onward s₀) x := fun s hs =>
  (h.busied s).mono fun _ _ hbusied => hs.tail (.busied hbusied)

/-- So does a single change. -/
theorem changes_modify {f : Scanner → Scanner} (h : ∀ s, Changes s (f s)) :
    Keeps (Onward s₀) (modify f) :=
  fun s hs => hs.tail (h s)

/-- A mode is switched to only if there are patterns for it. -/
theorem Changes.switchedTo {mode : Mode} (h : (s.lexicon.patterns? mode).isSome) :
    Changes s (s.switchedTo mode) :=
  .switched h

/-- Setting a mode is one change, or it is refused. -/
theorem changes_setMode (mode : Mode) : Keeps (Onward s₀) (setMode mode) := fun s hs => by
  rw [leaves_setMode]
  split
  · next h => exact hs.tail (.switchedTo h)
  · exact hs

/-- So is pushing a mode. -/
theorem changes_pushMode (mode : Mode) : Keeps (Onward s₀) (pushMode mode) := fun s hs => by
  rw [leaves_pushMode]
  split
  · next h => exact hs.tail (.pushed h)
  · exact hs

/-- Popping a mode forgets it first, and then switches, if there are patterns for it. -/
theorem changes_popMode : Keeps (Onward s₀) popMode := fun s hs => by
  rw [leaves_popMode]
  split
  · exact hs
  · next mode below hstack =>
    have hpopped := hs.tail (.popped hstack)
    split
    · next h => exact hpopped.tail (.switchedTo h)
    · exact hpopped

/-- A token is pushed back where none is waiting. -/
theorem changes_pushBack (token : Token) : Keeps (Onward s₀) (pushBack token) :=
  keeps_get_bind fun s hs => by
  split
  · exact hs
  · next hpending => exact hs.tail (.pushedBack hpending)

/-- The place of a file is that of its name. -/
theorem location?_of_file {disk : Disk} {name : String} {stream : Stream}
    (h : Stream.ofFile? disk name = .ok stream) :
    stream.location? = some (Location.ofName name) := by
  unfold Stream.ofFile? at h
  obtain ⟨text, -, h⟩ := bind_eq_ok.mp h
  cases h
  rfl

/-- A file is opened, or an error reported. -/
theorem openFile_opens (name id complaint : String) (position : Option Position) (s : Scanner) :
    (openFile name id complaint position).Leaves s fun r t =>
      match r with
      | .ok stream => Stream.ofFile? s.disk name = .ok stream ∧ t = s
      | .error _ => Busied s t := by
  have hbusied := (confined_openFile name id complaint position).busied s
  unfold openFile at hbusied ⊢
  rw [leaves_get_bind] at hbusied ⊢
  cases hfile : Stream.ofFile? s.disk name with
  | ok stream => exact ⟨rfl, rfl⟩
  | error fault =>
    rw [hfile] at hbusied
    dsimp only at hbusied ⊢
    cases hreason : fault.systemText? with
    | none => exact .refl s
    | some reason =>
      rw [hreason] at hbusied
      unfold Leaves at hbusied ⊢
      rw [errorAt_result]
      exact hbusied

/-- A file is included if it is none of the inputs. -/
theorem changes_includeFile (name : String) (position : Option Position) (atEnd : Routine) :
    Keeps (Onward s₀) (includeFile name position atEnd) := keeps_get_bind fun s hs => by
  dsimp only
  split
  · exact (confined_errorAt _ _ _ _).changes s hs
  · next hnew =>
    refine (openFile_opens _ _ _ position s).bind (fun stream t h => ?_) fun _ t h =>
      hs.tail (.busied h)
    obtain ⟨hfile, rfl⟩ := h
    refine hs.tail (.included hfile fun input hinput hlocation => hnew ?_)
    rw [location?_of_file hfile] at hlocation
    exact List.any_eq_true.mpr ⟨input, hinput, beq_iff_eq.mpr hlocation⟩

/-- Defining a macro is work at the cursor. -/
theorem changes_addMacro (definition : Macro) : Keeps (Onward s₀) (modify (addMacro definition)) :=
  changes_modify fun _ => .busied (.of_inputs rfl rfl)

/-- And so is putting down a note. -/
theorem changes_noted (label : String) : Keeps (Onward s₀) (modify (noted label)) :=
  changes_modify fun _ => .busied (.of_inputs rfl rfl)

/-- **Routines** change a scanner step by step. -/
theorem changes_perform (routine : Routine) : Keeps (Onward s₀) (perform routine) := by
  induction routine with
  | setMode mode rest ih => exact keeps_bind (changes_setMode mode) fun _ => ih
  | pushMode mode rest ih => exact keeps_bind (changes_pushMode mode) fun _ => ih
  | popMode rest ih => exact keeps_bind changes_popMode fun _ => ih
  | inject text length rest ih => exact keeps_bind (confined_inject text length).changes fun _ => ih
  | includeFile name position atEnd rest _ ih =>
    exact keeps_bind (changes_includeFile name position atEnd) ih
  | addMacro definition rest ih => exact keeps_bind (changes_addMacro definition) fun _ => ih
  | report severity id text position data rest ih =>
    exact keeps_bind (confined_report severity id text position data).changes fun _ => ih
  | pushBack token rest ih => exact keeps_bind (changes_pushBack token) fun _ => ih
  | note label rest ih => exact keeps_bind (changes_noted label) fun _ => ih
  | look rest ih => exact keeps_get_bind fun s hs => ih s.position s.mode s hs
  | fail fault => exact keeps_fail fault
  | done kind value => exact keeps_pure _

-- ---------------------------------------------------------------------------
-- Scanning
-- ---------------------------------------------------------------------------

/-- The part of a scan in front of a routine: a call is replaced, or else a pattern is looked for
and the cursor moved behind the match. -/
def findMatch : Run Scanner (Option (TokenPattern × Match)) := do
  if ← expandAtCursor then pure none
  else
    let s ← get
    let c ← onStream Stream.theCursor
    match firstMatch? ((s.lexicon.patterns? s.mode).getD []) c with
    | none =>
      reportUnmatched
      pure none
    | some (p, m) =>
      onStream (Stream.seek m.stop)
      let expanded ← if p.isSkipped then pure false else expandInMatch c.pos m
      pure (if expanded then none else some (p, m))

/-- A scan finds a match, and makes a token of it. -/
theorem scanAtCursor_eq : scanAtCursor = (do
    modify noting
    let start := (← get).position
    match ← findMatch with
    | none => pure none
    | some (p, m) => produce p m start) := by
  unfold scanAtCursor findMatch
  congr 1
  funext _
  congr 1
  funext s
  rw [bind_assoc]
  refine congrArg (expandAtCursor >>= ·) (funext fun expanded => ?_)
  cases expanded with
  | true => rfl
  | false =>
    simp only [Bool.false_eq_true, if_false, bind_assoc]
    refine congrArg (get >>= ·) (funext fun s' =>
      congrArg (onStream Stream.theCursor >>= ·) (funext fun c => ?_))
    cases firstMatch? ((s'.lexicon.patterns? s'.mode).getD []) c with
    | none =>
      dsimp only
      rw [bind_assoc]
      rfl
    | some found =>
      obtain ⟨p, m⟩ := found
      dsimp only
      rw [bind_assoc]
      refine congrArg (onStream (Stream.seek m.stop) >>= ·) (funext fun _ => ?_)
      split
      · rfl
      · rw [bind_assoc]
        refine congrArg (expandInMatch c.pos m >>= ·) (funext fun expanded => ?_)
        rw [pure_bind (if expanded = true then none else some (p, m))]
        cases expanded with
        | true => rfl
        | false => rfl

/-- Looking for a match is confined: calls are expanded at the cursor. -/
theorem confined_findMatch : Confined findMatch := by
  refine .andThen confined_expandAtCursor fun expanded => ?_
  split
  · exact .done _
  · refine .look (fun s => rfl) fun s => .andThen confined_theCursor fun c => ?_
    split
    · exact .andThen confined_reportUnmatched fun _ => .done _
    · refine .andThen (confined_seek _) fun _ => ?_
      dsimp only
      split
      · exact .andThen (.done _) fun _ => .done _
      · exact .andThen (confined_expandInMatch _ _) fun _ => .done _

/-- A token is made by a routine, whose requests are changes, or from the text alone. -/
theorem changes_produce (p : TokenPattern) (m : Match) (start : Position) :
    Keeps (Onward s₀) (produce p m start) := by
  unfold produce
  split
  · exact keeps_bind (changes_perform _) fun _ => keeps_pure _
  · exact keeps_bind (keeps_pure _) fun _ => keeps_pure _

/-- **Scanning at the cursor** changes a scanner step by step. -/
theorem changes_scanAtCursor : Keeps (Onward s₀) scanAtCursor := by
  rw [scanAtCursor_eq]
  refine keeps_bind (changes_modify fun _ => .busied (.of_inputs rfl rfl)) fun _ =>
    keeps_get_bind fun s hs => ?_
  refine keeps_bind confined_findMatch.changes (fun found => ?_) s hs
  split
  · exact keeps_pure _
  · exact changes_produce _ _ _

/-- A scanner in its default mode whose only input has come to its end. -/
def AtLastEnd (s : Scanner) : Prop :=
  ∃ input stream, s.inputs = [input] ∧ s.mode = s.defaultMode ∧
    Stream.readyNextLine.Returns input.stream false stream

/-- Without inputs there is no last end. -/
theorem not_atLastEnd_of_nil (hinputs : s.inputs = []) : ¬ AtLastEnd s := by
  rintro ⟨input, stream, hone, -⟩
  exact List.cons_ne_nil _ _ (hone.symm.trans hinputs)

/-- Whether the last end is reached can be read off the inputs. -/
theorem atLastEnd_iff {input : Input} {below : List Input} (hinputs : s.inputs = input :: below) :
    AtLastEnd s ↔ below = [] ∧ s.mode = s.defaultMode ∧
      (Stream.readyNextLine.run input.stream).result = .ok false := by
  unfold AtLastEnd
  rw [hinputs]
  constructor
  · rintro ⟨_, stream, hone, hmode, trace, hrun⟩
    obtain ⟨rfl, rfl⟩ := List.cons.inj hone
    exact ⟨rfl, hmode, by rw [hrun]⟩
  · rintro ⟨rfl, hmode, hresult⟩
    exact ⟨input, _, rfl, hmode, returns_of_result (by rw [hresult]; rfl)⟩

/-- At the end of an input a scanner goes back to the one that included it, unless it has come to
the end of the last one. -/
theorem endOfInput_changes (s : Scanner) : endOfInput.Leaves s fun r t =>
    (¬ (s.mode = s.defaultMode ∧ s.inputs.length ≤ 1) ∧ Onward s t) ∨
      ((s.mode = s.defaultMode ∧ s.inputs.length ≤ 1) ∧
        r = .ok (some (Token.endOfInput s.position)) ∧
        t = { s with ended := some (Token.endOfInput s.position) }) := by
  unfold endOfInput
  rw [leaves_get_bind]
  by_cases hmode : s.mode = s.defaultMode
  · rw [if_neg (by simpa using hmode)]
    split
    · next done parent below hinputs =>
      have hresumed : Onward s { s with
          inputs := { parent with saved := none } :: below, pending := parent.saved } :=
        .single (.resumed hinputs)
      have hrest : Keeps (Onward s) (do
          discard (perform done.atEnd)
          let token := (← get).pending
          modify fun s => { s with pending := none }
          pure token) :=
        keeps_bind (keeps_discard (changes_perform done.atEnd)) fun _ =>
          keeps_get_bind fun t ht => ht.tail .delivered
      rw [leaves_emit_bind, leaves_bind, leaves_set, continues_ok]
      refine (hrest _ hresumed).mono fun r t ht => .inl ⟨fun h => ?_, ht⟩
      have hlength := h.2
      rw [hinputs] at hlength
      exact absurd hlength (by simp)
    · next hinputs =>
      refine .inr ⟨⟨hmode, ?_⟩, rfl, rfl⟩
      match hs : s.inputs with
      | [] => exact Nat.zero_le 1
      | [_] => exact Nat.le_refl 1
      | done :: parent :: below => exact (hinputs done parent below hs).elim
  · rw [if_pos (by simpa using hmode)]
    have hlagged (lag : Int) : Onward s { s with lineLag := lag } :=
      .single (.busied (.of_inputs rfl rfl))
    dsimp only
    rw [leaves_bind, leaves_set, continues_ok]
    exact ((confined_error _ _).changes _ (hlagged _)).mono fun r t ht =>
      .inl ⟨fun h => hmode h.1, ht⟩

/-- A round begins with the next line of the current input. -/
theorem scanRound_leaves_ready {input : Input} {below : List Input}
    (hinputs : s.inputs = input :: below) {Q : Except Fault (Option Token) → Scanner → Prop} :
    scanRound.Leaves s Q ↔
      let ready := Stream.readyNextLine.run input.stream
      match ready.result with
      | .error fault => Q (.error fault) (s.onto ready.state)
      | .ok true => (do
          onStream (modify Stream.cleanup)
          scanAtCursor).Leaves (s.onto ready.state) Q
      | .ok false => endOfInput.Leaves (s.onto ready.state) Q := by
  unfold scanRound
  rw [leaves_bind, leaves_onStream (current?_of_inputs hinputs)]
  unfold Leaves
  dsimp only
  rcases (Stream.readyNextLine.run input.stream).result with fault | (_ | _)
  all_goals exact Iff.rfl

/-- **A round** changes a scanner step by step, unless it delivers the end of the last input. -/
theorem scanRound_changes (s : Scanner) : scanRound.Leaves s fun r t =>
    (¬ AtLastEnd s ∧ Onward s t) ∨ (AtLastEnd s ∧ ∃ u token, Onward s u ∧ u.pending = s.pending ∧
      token.isEnd = true ∧ r = .ok (some token) ∧ t = { u with ended := some token }) := by
  cases hinputs : s.inputs with
  | nil =>
    unfold scanRound
    rw [leaves_bind, leaves_onStream_of_none (by unfold current?; rw [hinputs]; rfl)]
    exact .inl ⟨not_atLastEnd_of_nil hinputs, .refl⟩
  | cons input below =>
    rw [scanRound_leaves_ready hinputs]
    have hlast := atLastEnd_iff hinputs
    have hready := (Confined.onStream Stream.stays_readyNextLine).busied s
    rw [leaves_onStream (current?_of_inputs hinputs)] at hready
    have hon : Onward s (s.onto (Stream.readyNextLine.run input.stream).state) :=
      .single (.busied hready)
    dsimp only
    rcases hresult : (Stream.readyNextLine.run input.stream).result with fault | (_ | _)
    · refine .inl ⟨fun hat => ?_, hon⟩
      exact nomatch hresult.symm.trans (hlast.mp hat).2.2
    · -- the end of the input
      have hinputs' := onto_inputs hinputs (Stream.readyNextLine.run input.stream).state
      have hiff : AtLastEnd s ↔ s.mode = s.defaultMode ∧
          (s.onto (Stream.readyNextLine.run input.stream).state).inputs.length ≤ 1 := by
        rw [hlast, hinputs']
        constructor
        · rintro ⟨rfl, hmode, -⟩
          exact ⟨hmode, Nat.le_refl 1⟩
        · rintro ⟨hmode, hlength⟩
          exact ⟨List.length_eq_zero_iff.mp (Nat.le_zero.mp (Nat.le_of_succ_le_succ hlength)),
            hmode, hresult⟩
      refine (endOfInput_changes _).mono fun r t h => ?_
      rcases h with ⟨hnot, hrest⟩ | ⟨hat, rfl, rfl⟩
      · exact .inl ⟨fun hat => hnot (hiff.mp hat), hon.trans hrest⟩
      · exact .inr ⟨hiff.mpr hat, _, _, hon, rfl, Token.isEnd_endOfInput _, rfl, rfl⟩
    · have hscan : Keeps (Onward s) (do
          onStream (modify Stream.cleanup)
          scanAtCursor) :=
        keeps_bind (Confined.onStream Stream.stays_cleanup).changes fun _ => changes_scanAtCursor
      refine (hscan _ hon).mono fun r t h => .inl ⟨fun hat => ?_, h⟩
      exact nomatch hresult.symm.trans (hlast.mp hat).2.2

-- ---------------------------------------------------------------------------
-- Calls for a token
-- ---------------------------------------------------------------------------

/-- Scanning comes to the end of the last input, in one of so many rounds. -/
inductive ReachesEnd : Nat → Scanner → Prop
  | now {rounds : Nat} {s : Scanner} (h : AtLastEnd s) : ReachesEnd (rounds + 1) s
  | later {rounds : Nat} {s t : Scanner}
      (hround : scanRound.Returns s none t) (h : ReachesEnd rounds t) : ReachesEnd (rounds + 1) s

/-- A round that does not hand on is the last one. -/
theorem reachesEnd_iff_of_final {n : Nat} (hfinal : (scanRound.run s).result ≠ .ok none) :
    ReachesEnd (n + 1) s ↔ AtLastEnd s := by
  refine ⟨fun hreaches => ?_, .now⟩
  cases hreaches with
  | now h => exact h
  | later hround _ =>
    obtain ⟨trace, hrun⟩ := hround
    rw [hrun] at hfinal
    exact absurd rfl hfinal

/-- A round that hands on leaves it to the others. -/
theorem reachesEnd_iff_of_returns {n : Nat} {t : Scanner} (hround : scanRound.Returns s none t)
    (hnot : ¬ AtLastEnd s) : ReachesEnd (n + 1) s ↔ ReachesEnd n t := by
  refine ⟨fun hreaches => ?_, .later hround⟩
  cases hreaches with
  | now h => exact absurd h hnot
  | later hround' hrest =>
    obtain ⟨-, rfl⟩ := hround.unique hround'
    exact hrest

/-- What a call for a token leaves: the end of the whole input is remembered, or else the scanner
has changed step by step. -/
def Called (reached : Prop) (s : Scanner) (r : Except Fault Token) (t : Scanner) : Prop :=
  (¬ reached ∧ Onward s t) ∨
    (reached ∧ ∃ u token, Onward s u ∧ token.isEnd = true ∧ r = .ok token ∧
      t = { u with ended := some token })

/-- **Rounds** change a scanner step by step, unless one of them comes to the end of the last
input. -/
theorem repeated_calls (rounds : Nat) (s : Scanner) :
    (repeated scanRound rounds).Leaves s (Called (ReachesEnd rounds s) s) := by
  induction rounds generalizing s with
  | zero => exact .inl ⟨nofun, .refl⟩
  | succ n ih =>
    have hround := scanRound_changes s
    unfold Leaves at hround ⊢
    rw [run_repeated_succ]
    rcases hrun : scanRound.run s with ⟨fault | (_ | token), t, trace⟩
    all_goals
      rw [hrun] at hround
      dsimp only at hround ⊢
    · -- the round ends with a fault
      have hreaches : ReachesEnd (n + 1) s ↔ AtLastEnd s :=
        reachesEnd_iff_of_final (by rw [hrun]; nofun)
      rcases hround with ⟨hnot, hthrough⟩ | ⟨-, u, token, -, -, -, h, -⟩
      · exact .inl ⟨mt hreaches.mp hnot, hthrough⟩
      · cases h
    · -- the round hands on
      rcases hround with ⟨hnot, hthrough⟩ | ⟨-, u, token, -, -, -, h, -⟩
      · have hreaches : ReachesEnd (n + 1) s ↔ ReachesEnd n t :=
          reachesEnd_iff_of_returns ⟨trace, hrun⟩ hnot
        rcases ih t with ⟨hnot', hrest⟩ | ⟨hreached, u, token, hu, htoken, hr, ht⟩
        · exact .inl ⟨mt hreaches.mp hnot', hthrough.trans hrest⟩
        · exact .inr ⟨hreaches.mpr hreached, u, token, hthrough.trans hu, htoken, hr, ht⟩
      · cases h
    · -- the round delivers a token
      have hreaches : ReachesEnd (n + 1) s ↔ AtLastEnd s :=
        reachesEnd_iff_of_final (by rw [hrun]; nofun)
      rcases hround with ⟨hnot, hthrough⟩ | ⟨hlast, u, token', hu, -, htoken, h, ht⟩
      · exact .inl ⟨mt hreaches.mp hnot, hthrough⟩
      · cases h
        exact .inr ⟨hreaches.mpr hlast, u, _, hu, htoken, rfl, ht⟩

/-- A call for a token comes to the end of the whole input: no token is at hand, and
scanning gets there. -/
def ComesToEnd (rounds : Nat) (s : Scanner) : Prop :=
  s.pending = none ∧ s.ended = none ∧ ReachesEnd rounds s

/-- **A call for a token** changes a scanner step by step, unless it comes to the end of
the whole input. -/
theorem next_calls (rounds : Nat) (s : Scanner) :
    (next rounds).Leaves s (Called (ComesToEnd rounds s) s) := by
  cases hpending : s.pending with
  | some token =>
    unfold Leaves
    rw [next_of_pending rounds hpending]
    exact .inl ⟨fun h => Option.some_ne_none token (hpending.symm.trans h.1), .single .delivered⟩
  | none =>
    cases hended : s.ended with
    | some token =>
      unfold Leaves
      rw [next_of_ended rounds hpending hended]
      exact .inl ⟨fun h => Option.some_ne_none token (hended.symm.trans h.2.1), .refl⟩
    | none =>
      by_cases hinputs : s.inputs = []
      · unfold Leaves
        rw [next_of_closed rounds hpending hended hinputs]
        refine .inl ⟨fun h => ?_, .refl⟩
        have hround : scanRound.Fails s .precondition := by
          refine Fails.bind ?_ _
          unfold Fails
          rw [leaves_onStream_of_none (by unfold current?; rw [hinputs]; rfl)]
        cases h.2.2 with
        | now hlast => exact not_atLastEnd_of_nil hinputs hlast
        | later hreturns _ => exact nomatch hround.of_returns hreturns
      · have hcalls := repeated_calls rounds s
        unfold Leaves at hcalls ⊢
        rw [next_run hpending hended hinputs]
        have hiff : ComesToEnd rounds s ↔ ReachesEnd rounds s :=
          ⟨fun h => h.2.2, fun h => ⟨hpending, hended, h⟩⟩
        rwa [propext hiff]

-- ---------------------------------------------------------------------------
-- Operations
-- ---------------------------------------------------------------------------

/-- One change of a scanner by an operation that leaves its settings alone. -/
inductive Turns (s : Scanner) : Scanner → Prop
  | changed {t : Scanner} (h : Changes s t) : Turns s t
  | finished {token : Token} (hend : token.isEnd = true) : Turns s { s with ended := some token }
  | closed : Turns s s.close
  | rewound (readsLabel : Bool) : Turns s (rewound readsLabel s)
  | opened {stream : Stream} (hinputs : s.inputs = [])
    (hsource : stream.location? = none ∨ ∃ name, Stream.ofFile? s.disk name = .ok stream) :
    Turns s { s with inputs := [{ stream := stream }] }
  | extended (mode : Mode) (p : TokenPattern) : Turns s (extended mode p s)

/-- Changes are steps of the scanner. -/
theorem Onward.turns (h : Onward s t) : ReflTransGen Turns s t := h.lift id fun _ _ => .changed

/-- So work that changes a scanner goes through its steps. -/
theorem turns_of_changes {x : Run Scanner α} (h : Keeps (Onward s) x) :
    x.Leaves s fun _ t => ReflTransGen Turns s t :=
  (h s .refl).mono fun _ _ => Onward.turns

/-- Starting closes the inputs, rewinds, and opens the master input. -/
theorem turns_start (readsLabel : Bool) (s : Scanner) :
    (start readsLabel).Leaves s fun _ t => ReflTransGen Turns s t := by
  have hrewound : ReflTransGen Turns s (rewound readsLabel s) := .single (.rewound readsLabel)
  rw [start_eq, leaves_modify_bind]
  unfold openMaster
  rw [leaves_get_bind]
  dsimp only
  split
  · exact leaves_bind.mpr (hrewound.tail (.opened rfl (.inl rfl)))
  · refine (openFile_opens _ _ _ _ _).bind (fun stream t h => ?_) fun _ t h =>
      hrewound.tail (.changed (.busied h))
    obtain ⟨hfile, rfl⟩ := h
    exact hrewound.tail (.opened rfl (.inr ⟨_, hfile⟩))

/-- **Operations** change a scanner step by step. -/
theorem turns_carryOut {op : Operation} (hop : ∀ settings, op ≠ .configure settings) (s : Scanner) :
    (carryOut op).Leaves s fun _ t => ReflTransGen Turns s t := by
  -- what is handed back makes no difference
  have hcarry {α : Type} {x : Run Scanner α} {answer : α → Answer} (h : x.Leaves s fun _ t =>
      ReflTransGen Turns s t) :
      (x >>= fun a => pure (answer a)).Leaves s fun _ t => ReflTransGen Turns s t :=
    h.bind (fun _ _ ht => ht) fun _ _ ht => ht
  cases op with
  | start readsLabel => exact hcarry (turns_start readsLabel s)
  | next rounds =>
    refine hcarry ((next_calls rounds s).mono fun r t h => ?_)
    rcases h with ⟨-, h⟩ | ⟨-, u, token, h, hend, -, rfl⟩
    · exact h.turns
    · exact h.turns.tail (.finished hend)
  | pushBack token => exact hcarry (turns_of_changes (changes_pushBack token))
  | setMode mode => exact hcarry (turns_of_changes (changes_setMode mode))
  | pushMode mode => exact hcarry (turns_of_changes (changes_pushMode mode))
  | popMode => exact hcarry (turns_of_changes changes_popMode)
  | includeFile name position atEnd =>
    exact hcarry (turns_of_changes (changes_includeFile name position atEnd))
  | close => exact hcarry (leaves_modify.mpr (.single .closed))
  | inject text length => exact hcarry (turns_of_changes (confined_inject text length).changes)
  | addMacro definition => exact hcarry (turns_of_changes (changes_addMacro definition))
  | addPattern mode p => exact hcarry (leaves_modify.mpr (.single (.extended mode p)))
  | report severity id text position data =>
    exact hcarry (turns_of_changes (confined_report severity id text position data).changes)
  | configure settings => exact (hop settings rfl).elim

/-- **What every change keeps** is so after any operations. -/
theorem after_invariant {inv : Scanner → Prop}
    (hturns : ∀ s t, inv s → Turns s t → inv t) {ops : List Operation}
    (hsettings : ∀ settings, .configure settings ∈ ops → ∀ s, inv s → inv (configured settings s))
    (h : inv s) : inv (after ops s) := by
  induction ops generalizing s with
  | nil => exact h
  | cons op rest ih =>
    refine ih (fun settings hmem => hsettings settings (List.mem_cons_of_mem _ hmem)) ?_
    by_cases hop : ∃ settings, op = .configure settings
    · obtain ⟨settings, rfl⟩ := hop
      exact hsettings settings List.mem_cons_self s h
    · have hall : ∀ t, ReflTransGen Turns s t → inv t := by
        intro t hturned
        induction hturned with
        | refl => exact h
        | tail _ hstep ih' => exact hturns _ _ ih' hstep
      exact hall _ (turns_carryOut (fun settings hsame => hop ⟨settings, hsame⟩) s)

end Scanner

end GrammarEngine
