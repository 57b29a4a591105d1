import GrammarEngine.Proofs.Parser.Tameness

/-!
# One token of push-back

The machine gives the token it has read back before it completes a pattern, and a source holds
one such token only. So whenever the machine gives a token back, nothing may be pushed back at
the source already.

This is an order of calls. A token is given back right after it was read, and behind a token that
was read nothing is pushed back. Completing a pattern may run an action, and an action may put
another file in front of the input, which moves the token pushed back behind that file. But before
the machine gives another token back it reads one.

To speak about all the calls in a parse, the parse is compared with another one, whose source may do
anything it likes with a token that is given back while there is one already. If no parse can tell
the two sources apart, no parse ever gives back a token then.

Main results:

* `alongside_giveBack` — where nothing is pushed back, both sources do the same.
* `alongside_round` — one round of the machine never meets the difference.
* `one_token_pushed_back` — nor does a whole parse, on a scanner.
-/

namespace GrammarEngine

open Run

/-- The same source, but for the way in which it takes a token back. -/
abbrev TokenSource.pushingBack {σ : Type}
    (source : TokenSource σ) (push : Token → Run σ Unit) : TokenSource σ :=
  { source with pushBack := push }

namespace Parser

-- ---------------------------------------------------------------------------
-- What pushes nothing back
-- ---------------------------------------------------------------------------

section Elsewhere

variable {σ : Type} [source : TokenSource σ] (push : Token → Run σ Unit)

/-- What an action asks for does not depend on how tokens are pushed back. -/
theorem perform_pushingBack (script : Script σ) :
    @perform σ (source.pushingBack push) script = perform script := by
  -- scripts are nested in lists of patterns, so the induction is that of carrying them out
  induction script using perform.induct with
  | case1 work rest ih => exact congrArg (onSource work >>= ·) (funext ih)
  | case2 rest ih => exact congrArg (get >>= ·) (funext ih)
  | case3 rest ih => exact congrArg (get >>= ·) (funext ih)
  | case4 id text position data => rfl
  | case5 id text position data rest ih =>
    exact congrArg (warning id text position data >>= ·) (funext fun _ => ih)
  | case6 kinds rest ih => exact congrArg (modify (limit kinds) >>= ·) (funext fun _ => ih)
  | case7 rule clause rest ih => exact congrArg (amend rule clause >>= ·) (funext fun _ => ih)
  | case8 rule rest ih => exact congrArg (dropRule rule >>= ·) (funext fun _ => ih)
  | case9 rule clauses rest ih =>
    exact congrArg (declareRule rule clauses >>= ·) (funext fun _ => ih)
  | case10 rest ih => exact congrArg (updateTable >>= ·) (funext fun _ => ih)
  | case11 fault => rfl
  | case12 value => rfl

/-- Nor does entering patterns. -/
theorem enterSkipped_pushingBack (site : Site) (token : Token) (moves : Bool) (skipped : List Key) :
    @enterSkipped σ (source.pushingBack push) site token moves skipped =
      enterSkipped site token moves skipped := by
  induction skipped generalizing moves with
  | nil => rfl
  | cons key rest ih =>
    unfold enterSkipped
    simp only [ih]
    rfl

/-- Nor shifting. -/
theorem shift_pushingBack (site : Site) (t : Transition) (token : Token) :
    @shift σ (source.pushingBack push) site t token = shift site t token := by
  unfold shift
  simp only [enterSkipped_pushingBack]
  rfl

theorem callAction_pushingBack (frame : Frame σ) (values : List Value)
    (positions : List (Option Position)) :
    @callAction σ (source.pushingBack push) frame values positions =
      callAction frame values positions := by
  unfold callAction
  simp only [perform_pushingBack]

/-- Nor reducing. -/
theorem reduce_pushingBack (frame : Frame σ) :
    @reduce σ (source.pushingBack push) frame = reduce frame := by
  unfold reduce
  simp only [callAction_pushingBack]

end Elsewhere

-- ---------------------------------------------------------------------------
-- Two sources that differ in what must not happen
-- ---------------------------------------------------------------------------

section Machine

variable {σ α : Type} {inv empty : σ → Prop} {p : Parser σ}

/-- If there is a token to be given back, nothing else is pushed back at the source. -/
def HasRoom (empty : σ → Prop) (token : Option Token) (p : Parser σ) : Prop :=
  token.isSome → ∃ s, p.source = some s ∧ empty s

theorem hasRoom_none : HasRoom empty none p := fun h => nomatch h

/-- A run of the machine and one with the other source come to the same from a parser. -/
abbrev SameFrom (inv : σ → Prop) (p : Parser σ) (x y : Run (Parser σ) α) : Prop :=
  Alongside (Same (Tame inv True)) Fault.IsMild x p y p

/-- The frames may be looked at. -/
theorem alongside_frames {f g : List (Frame σ) → Run (Parser σ) α}
    (h : SameFrom inv p (f (p.stack.getD [])) (g (p.stack.getD []))) :
    SameFrom inv p (frames >>= f) (frames >>= g) := by
  unfold frames
  rw [bind_assoc, bind_assoc]
  refine alongside_get_bind ?_
  rw [pure_bind, pure_bind]
  exact h

variable [source : TokenSource σ] (hsource : TokenSource.Courteous inv empty)
  {push : Token → Run σ Unit}
  (hpush : ∀ token s, inv s → empty s → (push token).run s = (TokenSource.pushBack token).run s)

include hsource

/-- Behind a token that was read, there is room for it. -/
theorem hasRoom_of_nextToken {rounds : Nat} {token : Token} {q : Parser σ} (hp : p.Tame inv True)
    (h : (nextToken rounds).Returns p token q) : HasRoom empty (some token) q :=
  fun _ => empty_of_nextToken hsource hp h

include hpush

/-- Where there is room, both sources take a token back in the same way. -/
theorem alongside_giveBack {token : Option Token}
    (hp : p.Tame inv True) (hroom : HasRoom empty token p) :
    SameFrom inv p (giveBack token) (@giveBack σ (source.pushingBack push) token) := by
  cases token with
  | none => exact alongside_pure () ⟨rfl, hp⟩
  | some token =>
    obtain ⟨s, hs, hempty⟩ := hroom rfl
    have hinv := hp.source trivial s hs
    have hrun : (onSource (push token)).run p = (onSource (TokenSource.pushBack token)).run p := by
      rw [onSource_run hs, onSource_run hs]
      rw [hpush token s hinv hempty]
    refine (alongside_onSource hp fun s' hs' => ?_).congr hrun
    obtain rfl := Option.some.inj (hs.symm.trans hs')
    exact hsource.pushBack hinv hempty

/-- To complete a pattern, a token is given back at most, and nothing else is. -/
theorem alongside_finish {token : Option Token}
    (rounds : Nat) (hp : p.Tame inv True) (hroom : HasRoom empty token p) :
    SameFrom inv p (finish rounds token) (@finish σ (source.pushingBack push) rounds token) := by
  unfold finish
  refine (alongside_giveBack hsource hpush hp hroom).bind fun _ _ _ hsame => ?_
  simp only [reduce_pushingBack]
  refine docile_frames (fun fs hfs => ?_) _ _ hsame
  split
  · exact respects_fail trivial
  · next root =>
    refine respects_bind (docile_setFrames nofun) fun _ => ?_
    refine respects_bind (docile_expectEnd hsource rounds) fun _ => ?_
    exact respects_bind (docile_setFrames hfs) fun _ => respects_pure true
  · next frame below _ =>
    obtain ⟨hframe, hbelow⟩ := List.forall_mem_cons.mp hfs
    refine respects_bind (docile_setFrames hbelow) fun _ => ?_
    exact respects_bind (docile_reduce hsource hframe) fun _ => respects_pure false

/-- **Settling** pushes back at most one token, where there is room for it. -/
theorem alongside_settle {token : Option Token} (rounds : Nat) (site : Site) (hp : p.Tame inv True)
    (hroom : HasRoom empty token p) :
    SameFrom inv p (settle rounds site token)
      (@settle σ (source.pushingBack push) rounds site token) := by
  unfold settle
  split
  · dsimp only
    split
    · rw [pure_bind, pure_bind]
      exact docile_error hsource _ _ _ _ p p ⟨rfl, hp⟩
    · exact respects_bind (docile_nextToken hsource rounds) (fun _ => docile_error hsource _ _ _ _)
        p p ⟨rfl, hp⟩
  · refine (alongside_finish hsource hpush rounds hp hroom).bind fun done _ q hsame => ?_
    obtain ⟨rfl, hq⟩ := hsame
    have hgoesOn : Docile inv True (do pure (.inl (← topSite)) : Run (Parser σ) (Site ⊕ Unit)) :=
      respects_bind docile_topSite fun _ => respects_pure _
    cases done with
    | true => exact alongside_pure _ ⟨rfl, hq⟩
    | false =>
      simp only [Bool.false_eq_true, if_false]
      refine alongside_frames ?_
      split
      · refine (alongside_finish hsource hpush rounds hq hasRoom_none).bind fun done _ _ hsame => ?_
        cases done with
        | true => exact alongside_pure _ hsame
        | false => exact hgoesOn _ _ hsame
      · exact hgoesOn q q ⟨rfl, hq⟩

/-- So does proceeding. -/
theorem alongside_proceed {token : Token} (rounds : Nat) (site : Site) (hp : p.Tame inv True)
    (hroom : HasRoom empty (some token) p) :
    SameFrom inv p (proceed rounds site token)
      (@proceed σ (source.pushingBack push) rounds site token) := by
  unfold proceed
  refine alongside_get_bind ?_
  split
  · rw [@shift_pushingBack σ source push]
    exact respects_bind (docile_shift hsource _ _ _) (fun _ => respects_pure _) p p ⟨rfl, hp⟩
  · exact alongside_settle hsource hpush rounds site hp hroom

/-- **One round.** A token is given back in the round in which it was read. Where a rule starts
over, the action of the pattern comes after that, and then another token is read. -/
theorem alongside_round (rounds : Nat) (site : Site) (hp : p.Tame inv True) :
    SameFrom inv p (round rounds site) (@round σ (source.pushingBack push) rounds site) := by
  unfold round
  split
  · exact alongside_settle hsource hpush rounds site hp hasRoom_none
  · refine (docile_nextToken hsource rounds p p ⟨rfl, hp⟩).bind_returns ?_
    rintro token _ q ⟨rfl, hq⟩ htoken
    have hroom := hasRoom_of_nextToken hsource hp htoken
    refine alongside_get_bind ?_
    split
    · split
      · refine Alongside.bind_returns (respects_emit _ q q ⟨rfl, hq⟩) ?_
        rintro _ _ r ⟨rfl, hr⟩ hemit
        obtain rfl := returns_emit.mp hemit
        refine (alongside_map _ (alongside_finish hsource hpush rounds hq hroom)).bind ?_
        rintro _ _ r ⟨rfl, hr⟩
        refine alongside_get_bind ?_
        dsimp only
        refine (docile_nextToken hsource rounds r r ⟨rfl, hr⟩).bind_returns ?_
        rintro again _ t ⟨rfl, ht⟩ hagain
        exact alongside_proceed hsource hpush rounds _ ht (hasRoom_of_nextToken hsource hr hagain)
      · rw [@shift_pushingBack σ source push]
        exact respects_bind (docile_shift hsource _ _ _) (fun _ => respects_pure _) q q ⟨rfl, hq⟩
    · exact alongside_settle hsource hpush rounds site hq hroom

/-- A whole parse cannot tell the sources apart. What a parser holds of an earlier parse does not
matter, as both the source and the frames are new. -/
theorem alongside_parse (rounds : Nat) (rule : String) {s : σ}
    (hs : inv s) (hp : p.Tame inv False) :
    Alongside (Same (Tame inv False)) Fault.IsMild (parse rounds rule s) p
      (@parse σ (source.pushingBack push) rounds rule s) p := by
  unfold parse
  refine (docile_prepare rule p p ⟨rfl, hp⟩).bind ?_
  rintro r _ q ⟨rfl, hq⟩
  refine Alongside.bind_returns (alongside_modify ⟨rfl, tame_of_rules hq.rules⟩) ?_
  rintro _ _ q₁ ⟨rfl, hq₁⟩ hsourced
  obtain rfl := returns_modify.mp hsourced
  refine alongside_get_bind ?_
  dsimp only
  split
  · exact alongside_fail trivial ⟨rfl, hq₁⟩
  · next state _ =>
    refine Alongside.bind_returns (alongside_modify ⟨rfl, tame_of_rules hq₁.rules⟩) ?_
    rintro _ _ q₂ ⟨rfl, hq₂⟩ hframed
    obtain rfl := returns_modify.mp hframed
    have hunderWay : Tame inv True { q with
        source := some s, stack := some [{ site := ⟨q.table, state⟩, action := none }] } :=
      ⟨hq.rules, fun _ => List.forall_mem_singleton.mpr Action.tame_none, fun _ t ht =>
        Option.some.inj ht ▸ hs⟩
    have hafter (r t : Parser σ) (hsame : Same (Tame inv True) r t) : Same (Tame inv False) r t :=
      ⟨hsame.1, tame_of_rules hsame.2.rules⟩
    have hround (site : Site) (r t : Parser σ) (hsame : Same (Tame inv True) r t) :
        Alongside (Same (Tame inv True)) Fault.IsMild (round rounds site) r
          (@round σ (source.pushingBack push) rounds site) t := by
      obtain ⟨rfl, hr⟩ := hsame
      exact alongside_round hsource hpush rounds site hr
    have hrounds := alongside_iterate trivial hround rounds ⟨q.table, state⟩ ⟨rfl, hunderWay⟩
    refine (hrounds.bind ?_).mono hafter fun _ => id
    rintro _ _ t ⟨rfl, ht⟩
    refine alongside_frames ?_
    split
    · exact alongside_fail trivial ⟨rfl, ht⟩
    · exact alongside_get_bind (alongside_pure _ ⟨rfl, ht⟩)

end Machine

-- ---------------------------------------------------------------------------
-- Parses on a scanner
-- ---------------------------------------------------------------------------

/-- A reticent scanner can take a token back after it has delivered one. -/
theorem courteous_scanner : TokenSource.Courteous Scanner.Reticent fun s => s.pending = none where
  next := Scanner.polite_next
  empties := Scanner.pending_of_next
  pushBack hs hempty := Scanner.polite_pushBack _ hempty hs
  error := Scanner.polite_errorAt
  warning := Scanner.polite_report .warning

/-- **One token of push-back is enough.** If no routine of a scanner pushes a token back, and no
action does so to the scanner, a parse gives a token back only while none is pushed back: what the
scanner would do with another one makes no difference. So no parse comes to the fault of a second
token pushed back, whether it returns or fails, and whatever else its actions do, such as going on
with other files or rebuilding the table. -/
theorem one_token_pushed_back {p : Parser Scanner} {s : Scanner} (rounds : Nat) (rule : String)
    (hactions : ∀ r ∈ p.grammar.rules ++ p.former,
      ∀ q ∈ r.patterns, Action.Tame Scanner.Reticent q.action)
    (hs : s.Reticent) (push : Token → Run Scanner Unit)
    (hpush : ∀ token t, t.pending = none → (push token).run t = (Scanner.pushBack token).run t) :
    (@parse Scanner (TokenSource.pushingBack inferInstance push) rounds rule s).run p =
      (parse rounds rule s).run p ∧ ∀ token pending, ((parse rounds rule s).run p).result ≠
        .error (.secondPushBack token pending) := by
  have hsame := alongside_parse courteous_scanner (fun token t _ hempty => hpush token t hempty)
    rounds rule hs (tame_of_rules hactions)
  exact ⟨hsame.run_eq, fun token pending hfault => hsame.faults _ hfault⟩

/-- Goes on with the file that an element names, and rebuilds the table. -/
private def goOnWith : Action Scanner
  | [_, .text file] =>
    .source (do pure (.text (← Scanner.includeFile file none .idle))) fun full =>
      .rebuild (.done full)
  | _ => .done .nothing

/-- A list of names and inclusions up to the end of the input. -/
private def inclusions : Parser Scanner where
  grammar :=
    { rules :=
        [{ id := ⟨"list", 0⟩
           patterns := [.ofTokens [⟨.reference, "items"⟩, .atEnd]
             (some fun values => .done (values.headD .nothing))] },
          { id := ⟨"items", 1⟩
            patterns := [.ofTokens [⟨.literal, "include"⟩, ⟨.category, "ID"⟩] (some goOnWith),
              .ofTokens [⟨.category, "ID"⟩] (some fun values => .done (values.headD .nothing))]
            repeatable := true }]
      distinct := by decide }
  declared := 2
  stamped := by decide

/-- A text with names, which includes a file before the last one. -/
private def threeNames : Scanner :=
  { master := "a include f z"
    lexicon :=
      [ (none,
          [ ⟨none, ⟨.repeated 1 none false (.oneOf false [.char ' ', .char '\n']), 0, {}⟩, none⟩,
            ⟨some "ID", ⟨.repeated 1 none false (.oneOf false [.range 'a' 'z']), 0, {}⟩, none⟩ ]) ]
    defaultMode := none
    disk := ⟨[(.ofName "f", .text "x y")]⟩
    mode := none
    inputs := [{ stream := .ofText "a include f z" "<buffer>" }] }

/-- Refuses a second token in its own way. -/
private def refuseSecond (token : Token) : Run Scanner Unit := do
  if (← get).pending.isSome then fail .precondition else Scanner.pushBack token

private theorem tame_inclusions :
    ∀ r ∈ inclusions.grammar.rules ++ inclusions.former, ∀ q ∈ r.patterns,
      Action.Tame Scanner.Reticent q.action := by
  have hinclude (file : String) : Polite Scanner.Reticent (do
      pure (.text (← Scanner.includeFile file none .idle)) : Run Scanner Value) :=
    polite_bind (Scanner.polite_includeFile file none trivial) fun _ => polite_pure _
  intro r hr q hq action haction values
  simp only [inclusions, List.append_nil, List.mem_cons, List.not_mem_nil, or_false] at hr
  rcases hr with rfl | rfl <;>
    simp only [List.mem_cons, List.not_mem_nil, or_false] at hq
  · subst hq
    obtain rfl := Option.some.inj haction
    exact .done _
  · rcases hq with rfl | rfl <;> obtain rfl := Option.some.inj haction
    · unfold goOnWith
      split
      · exact .source (hinclude _) fun _ => .rebuild (.done _)
      · exact .done _
    · exact .done _

private theorem reticent_threeNames : threeNames.Reticent where
  routines mode := by
    cases mode with
    | none => exact List.forall_mem_cons.mpr ⟨nofun, List.forall_mem_singleton.mpr nofun⟩
    | some mode => exact fun p hp => nomatch hp
  atEnds := List.forall_mem_singleton.mpr trivial

/-- The name behind the inclusion starts the items over, and is pushed back before the file is
gone on with. -/
theorem one_token_pushed_back_inclusions :
    ((parse 30 "list" threeNames).run inclusions).result.toOption =
        some (.series [.text "a", .text "f", .text "x", .text "y", .text "z"]) ∧
      (@parse Scanner (TokenSource.pushingBack inferInstance refuseSecond) 30 "list" threeNames).run
        inclusions = (parse 30 "list" threeNames).run inclusions ∧
      ∀ token pending, ((parse 30 "list" threeNames).run inclusions).result ≠
        .error (.secondPushBack token pending) := by
  refine ⟨by decide +kernel,
    one_token_pushed_back 30 "list" tame_inclusions reticent_threeNames refuseSecond ?_⟩
  intro token t hempty
  unfold refuseSecond
  rw [run_bind, run_get]
  dsimp only
  rw [hempty, List.append_nil]
  rfl

end Parser

end GrammarEngine
