import GrammarEngine.Proofs.Parser.Licence
import GrammarEngine.Proofs.Parser.Soundness
import GrammarEngine.Proofs.Parser.Stability

/-!
# A parse comes to an end

A round may push many frames, take one away, or do both where a rule starts over. What keeps it from
going on for ever is that frames are pushed only along the states that the transition for a token
passes, and that each token is read once. So the tokens still to be read, each with as many frames
as a transition may push, and the frames on the stack are a measure that every round makes smaller.

Behind the input there are end tokens without end. They are harmless if the end of the input is
asked for only at the end of a start rule that has one instance: once an end token was shifted, no
transition leads on from there, and only the frame of the start rule is below.

Tokens are counted by the events that are left: a round that completes patterns shifts nothing, and
any round shifts at most one token (`AtMost`). That nothing but the slot of a token is told to have
been shifted is a law for which actions only have to compute.

Main results:

* `round_atMost`, `round_atMost_of_settles` — what rounds shift.
* `Underway.advance` — the measure and the end of the input, round by round.
* `parse_ends` — a parse ends, with at most one token shifted that is not of the input.
-/

namespace GrammarEngine

open Run

/-- The number of tokens shifted. -/
def shifts (trace : List Event) : Nat := trace.countP Event.isShift

@[simp] theorem shifts_nil : shifts [] = 0 := rfl

@[simp] theorem shifts_append (trace trace' : List Event) :
    shifts (trace ++ trace') = shifts trace + shifts trace' :=
  List.countP_append ..

namespace Run

variable {σ α β : Type}

/-- A run is not cut short, and it shifts at most a number of tokens. -/
structure AtMost (count : Nat) (x : Run σ α) (s : σ) : Prop where
  finished : (x.run s).result ≠ .error .exhausted
  shifts_le : shifts (x.run s).trace ≤ count

variable {count count' : Nat} {x : Run σ α} {s : σ}

/-- A bound on the number of tokens shifted may be raised. -/
theorem AtMost.mono (h : AtMost count x s) (hle : count ≤ count') : AtMost count' x s :=
  ⟨h.finished, Nat.le_trans h.shifts_le hle⟩

/-- In a chain the numbers of tokens add up. -/
theorem AtMost.bind {f : α → Run σ β} (hx : AtMost count x s)
    (hf : ∀ a t, x.Returns s a t → AtMost count' (f a) t) :
    AtMost (count + count') (x >>= f) s := by
  obtain ⟨hfinished, hshifts⟩ := hx
  rcases hrun : x.run s with ⟨fault | a, t, trace⟩
  all_goals
    rw [hrun] at hfinished hshifts
  · constructor <;> rw [run_bind, hrun]
    · exact fun h => hfinished (congrArg Except.error (Except.error.inj h))
    · exact Nat.le_add_right_of_le hshifts
  · obtain ⟨hfinished', hshifts'⟩ := hf a t ⟨trace, hrun⟩
    constructor <;> rw [run_bind, hrun]
    · exact hfinished'
    · rw [shifts_append, Nat.add_comm]
      exact Nat.add_le_add hshifts hshifts'

/-- A run that leaves no events may stand in front. -/
theorem AtMost.after {f : α → Run σ β} {a : α} {t : σ}
    (hx : x.run s = ⟨.ok a, t, []⟩) (hf : AtMost count (f a) t) : AtMost count (x >>= f) s := by
  obtain ⟨hfinished, hshifts⟩ := hf
  constructor <;> rw [run_bind, hx]
  · exact hfinished
  · simpa using hshifts

/-- To return a value shifts nothing. -/
theorem atMost_pure (a : α) : AtMost 0 (pure a) s := ⟨by simp, Nat.le_refl 0⟩

/-- Nothing is shifted by giving up, either. -/
theorem atMost_fail {fault : Fault} (h : fault ≠ .exhausted) : AtMost 0 (fail fault : Run σ α) s :=
  ⟨by simpa using h, Nat.le_refl 0⟩

/-- Nothing is shifted where a value is only handed on. -/
theorem AtMost.bind_pure {f : α → β} (hx : AtMost count x s) :
    AtMost count (x >>= fun a => pure (f a)) s :=
  hx.bind fun a _ _ => atMost_pure (f a)

/-- The law that nothing is shifted, and that no run is cut short. -/
def shiftless : Law σ where
  Holds _ := True
  Says _ fault trace _ := fault ≠ some .exhausted ∧ shifts trace = 0
  still _ := ⟨nofun, rfl⟩
  chain h h' := ⟨h'.1, by rw [shifts_append, h.2, h'.2]⟩

/-- A change of the state shifts nothing. -/
theorem accords_shiftless_set (t : σ) : Accords shiftless (set t) s :=
  accords_set trivial ⟨nofun, rfl⟩

/-- Faults and other events are no shifts. -/
theorem lenient_shiftless : (shiftless : Law σ).Lenient where
  plain _ _ hplain := ⟨fun h => by rw [Option.some.inj h] at hplain; exact hplain, rfl⟩
  event _ _ hevent := ⟨nofun, List.countP_eq_zero.mpr (by simp [hevent])⟩

end Run

variable {σ α β : Type}

/-- A script that only computes: it makes a value or gives up. Being cut short is none
of its faults. -/
def Script.Computes (script : Script σ) : Prop :=
  (∃ v, script = .done v) ∨ ∃ fault, fault ≠ .exhausted ∧ script = .fail fault

/-- The licence of actions that only compute. -/
def computing : Script.Licence σ where
  work _ := False
  drops := False
  fails fault := fault ≠ .exhausted

/-- Scripts that only compute are within the licence of computing. -/
theorem Script.Computes.within {script : Script σ} (h : script.Computes) :
    script.Within computing := by
  rcases h with ⟨v, rfl⟩ | ⟨fault, hfault, rfl⟩
  · exact .done v
  · exact .fail hfault

-- ---------------------------------------------------------------------------
-- Where the input ends
-- ---------------------------------------------------------------------------

/-- What a terminal is looked up by is of its kind. -/
theorem Descriptor.kind_normalized (d : Descriptor) : d.normalized.kind = d.kind := by
  obtain ⟨kind, name⟩ := d
  cases kind <;> rfl

namespace Grammar

variable {g : Grammar α} {r : Rule α} {rule : String} {pattern index : Nat} {chain : List Key}
  {target : Key} {token : Descriptor} {t : Transition}

/-- No pattern refers to a rule. -/
def Unreferenced (g : Grammar α) (rule : String) : Prop :=
  ∀ r ∈ g.rules, ∀ p ∈ r.patterns, ∀ d ∈ p.tokens, d.kind = .reference → d.name ≠ rule

instance (g : Grammar α) (rule : String) : Decidable (g.Unreferenced rule) :=
  inferInstanceAs (Decidable (∀ r ∈ g.rules, ∀ p ∈ r.patterns, ∀ d ∈ p.tokens, d.kind = .reference →
    d.name ≠ rule))

/-- The end of the input, if it is asked for at all, is the last element of a pattern of the start
rule, and that rule has one instance: it does not repeat, and no pattern refers to it. -/
def EndsOnce (g : Grammar α) (rule : String) : Prop :=
  ∀ r ∈ g.rules, ∀ p ∈ r.patterns, (∀ d ∈ p.tokens.dropLast, d.kind ≠ .endOfInput) ∧
    ∀ d ∈ p.tokens, d.kind = .endOfInput →
    r.name = rule ∧ r.repeatable = false ∧ g.Unreferenced rule

instance (g : Grammar α) (rule : String) : Decidable (g.EndsOnce rule) :=
  inferInstanceAs (Decidable (∀ r ∈ g.rules, ∀ p ∈ r.patterns,
    (∀ d ∈ p.tokens.dropLast, d.kind ≠ .endOfInput) ∧ ∀ d ∈ p.tokens, d.kind = .endOfInput →
    r.name = rule ∧ r.repeatable = false ∧ g.Unreferenced rule))

/-- A way leads to a terminal of a pattern. -/
theorem Way.exists_terminal (hr : r ∈ g.rules) (h : g.Way r pattern index chain target token) :
    ∃ s ∈ g.rules, ∃ pattern p index d, target = ⟨s.id, some pattern, index⟩ ∧
      s.patterns[pattern]? = some p ∧ p.tokens[index]? = some d ∧ token = d.normalized := by
  induction h with
  | terminal hp hd => exact ⟨_, hr, _, _, _, _, rfl, hp, hd, rfl⟩
  | enter _ _ _ hs _ ih => exact ih (mem_of_find?_eq_some hs)
  | skip _ _ _ _ _ _ ih => exact ih hr

/-- Where a path leads, there is a terminal of a pattern. -/
theorem Path.exists_terminal {k : Key} (h : g.Path k t) :
    ∃ s ∈ g.rules, ∃ pattern p index d, t.target = ⟨s.id, some pattern, index⟩ ∧
      s.patterns[pattern]? = some p ∧ p.tokens[index]? = some d ∧ t.token = d.normalized := by
  cases h with
  | entry hr hway | onward hr hway | again hr _ _ _ _ hway => exact hway.exists_terminal hr

/-- No path leads on from behind the end of the input, and no pattern refers to the rule
it is in. -/
theorem EndsOnce.last (hends : g.EndsOnce rule) {k : Key}
    (h : g.Path k t) (hkind : t.token.kind = .endOfInput) :
    (∀ t', ¬ g.Path t.target t') ∧ t.target.rule.name = rule ∧ g.Unreferenced rule := by
  obtain ⟨s, hs, pattern, p, index, d, htarget, hp, hd, htoken⟩ := h.exists_terminal
  rw [htoken, Descriptor.kind_normalized] at hkind
  obtain ⟨hlast, hend⟩ := hends s hs p (List.mem_of_getElem? hp)
  obtain ⟨hname, hrepeat, hunreferenced⟩ := hend d (List.mem_of_getElem? hd) hkind
  have hlt := (List.getElem?_eq_some_iff.mp hd).1
  have hindex : ¬ index + 1 < p.tokens.length := by
    intro hmore
    refine hlast d ?_ hkind
    rw [List.dropLast_eq_take]
    exact List.mem_of_getElem? ((List.getElem?_take_of_lt (by omega)).trans hd)
  rw [htarget]
  refine ⟨fun t' h' => ?_, hname, hunreferenced⟩
  rcases (path_inside_iff hs hp (by omega)).mp h' with ⟨_, _, _, -, hway⟩ | ⟨hrepeat', -⟩
  · have := hway.index_lt hp
    omega
  · rw [hrepeat] at hrepeat'
    cases hrepeat'

end Grammar

/-- The end token is matched by the end of the input only. -/
theorem Descriptor.Matches.kind_of_isEnd {kinds : List String} {d : Descriptor} {token : Token}
    (h : d.Matches kinds token) (hend : token.isEnd = true) : d.kind = .endOfInput := by
  cases h with
  | endOfInput => rfl
  | literal hnot | keyword hnot | category hnot =>
    rw [hend] at hnot
    cases hnot

namespace Parser

-- ---------------------------------------------------------------------------
-- What rounds shift
-- ---------------------------------------------------------------------------

/-- What a message log does shifts nothing, for a queue of tokens as well. -/
theorem obeyed_shiftless_onMessages {work : Run MessageLog α} (h : shiftless.Obeyed work) :
    shiftless.Obeyed (TokenQueue.onMessages work) :=
  fun q _ => ⟨trivial, (h q.messages trivial).told⟩

/-- Recording a message shifts nothing. -/
theorem records_shiftless : shiftless.Records := by
  intro log m h
  refine ⟨h, fun hexhausted => ?_, ?_⟩
  · rcases MessageLog.eq_of_fault? hexhausted with heq | heq
    all_goals cases heq
  · unfold MessageLog.echo
    split <;> rfl

/-- A queue delivers its tokens without a shift: it is the machine that shifts them. -/
theorem obeyed_shiftless_next : shiftless.Obeyed TokenQueue.next := by
  intro q h
  unfold TokenQueue.next
  refine accords_get_bind ?_
  split
  · exact (accords_shiftless_set _).bind fun _ _ ht _ => accords_pure _ ht
  · exact (accords_shiftless_set _).bind fun _ _ ht _ => accords_pure _ ht
  · exact accords_pure _ h

/-- It takes them back without one, too. -/
theorem obeyed_shiftless_pushBack (token : Token) :
    shiftless.Obeyed (TokenQueue.pushBack token) := by
  intro q h
  unfold TokenQueue.pushBack
  refine accords_get_bind ?_
  split
  · exact accords_fail h (lenient_shiftless.plain q _ trivial)
  · exact accords_shiftless_set _

/-- Reading from a queue, giving tokens back and reporting are no shifts. -/
theorem lawful_shiftless : Lawful computing (shiftless : Law TokenQueue) shiftless where
  source := lenient_shiftless
  log := lenient_shiftless
  next _ := obeyed_shiftless_next
  pushBack := obeyed_shiftless_pushBack
  error _ _ _ _ := obeyed_shiftless_onMessages (records_shiftless.error _ _ _ _ _ _)
  warning _ _ _ _ :=
    fun q hq => accords_discard (obeyed_shiftless_onMessages (records_shiftless.add _) q hq)
  records := records_shiftless
  work _ h := h.elim
  fails _ h := ⟨fun _ => ⟨fun heq => h (Option.some.inj heq), rfl⟩, fun _ =>
    ⟨fun heq => h (Option.some.inj heq), rfl⟩⟩

/-- The law of a parser all of whose actions only compute: nothing is shifted. -/
def stillness : Law (Parser TokenQueue) := law computing shiftless shiftless

variable {p p' : Parser TokenQueue} {x : Run (Parser TokenQueue) α} {count : Nat}

/-- A parser whose actions only compute is one that the law of shifting nothing is about. -/
theorem stillness_holds (hp : p.Within computing) : stillness.Holds p :=
  ⟨hp, fun _ _ => trivial, trivial⟩

/-- What obeys that law shifts no token, and is not cut short. -/
theorem atMost_of_accords (h : Accords stillness x p) : AtMost 0 x p := by
  have htold : faultOf? (x.run p).result ≠ some .exhausted ∧ shifts (x.run p).trace = 0 := by
    cases h.told with
    | onSource _ _ _ h => exact h
    | alone _ _ h => exact h
  refine ⟨fun hresult => htold.1 ?_, Nat.le_of_eq htold.2⟩
  rw [hresult]
  rfl

/-- In front of a run that shifts something there may be one that does not. -/
theorem atMost_of_accords_bind {f : α → Run (Parser TokenQueue) β} (hx : Accords stillness x p)
    (hf : ∀ a p', p'.Within computing → x.Returns p a p' → AtMost count (f a) p') :
    AtMost count (x >>= f) p := by
  refine ((atMost_of_accords hx).bind fun a p' hreturns => hf a p' ?_ hreturns).mono (by omega)
  have hholds := hx.holds
  obtain ⟨trace, hrun⟩ := hreturns
  rw [hrun] at hholds
  exact hholds.1

/-- **A deposit** is the shift of one token. -/
theorem deposit_atMost (hp : p.Within computing) (t : Transition) (token : Token) :
    AtMost 1 (deposit t token) p := by
  have hL := lawful_shiftless.lenient
  unfold deposit topKeys
  refine atMost_of_accords_bind (accords_changeTop hL (fun _ => by rfl) (stillness_holds hp))
    fun _ p₁ hp₁ _ => ?_
  refine atMost_of_accords_bind ?_ fun keys p₂ _ _ => ⟨nofun, Nat.le_refl 1⟩
  exact accords_frames (accords_pure _ (stillness_holds hp₁))

/-- A shift enters patterns, which shifts nothing, and deposits the token. -/
theorem shift_atMost (hp : p.Within computing) (site : Site) (t : Transition) (token : Token) :
    AtMost 1 (shift site t token) p := by
  have h := lawful_shiftless
  unfold shift
  refine atMost_of_accords_bind (obeyed_enterSkipped h _ _ _ _ p (stillness_holds hp))
    fun _ p₁ hp₁ _ => ?_
  refine atMost_of_accords_bind (obeyed_follow h site t.target p₁ (stillness_holds hp₁))
    fun target p₂ hp₂ _ => ?_
  dsimp only
  split
  · refine atMost_of_accords_bind (obeyed_pushFrame h target token p₂ (stillness_holds hp₂))
      fun _ p₃ hp₃ _ => ?_
    exact (deposit_atMost hp₃ t token).bind_pure
  · refine atMost_of_accords_bind
      (accords_changeTop h.lenient (fun _ => by rfl) (stillness_holds hp₂)) ?_
    exact fun _ p₃ hp₃ _ => (deposit_atMost hp₃ t token).bind_pure

/-- Going on with a token shifts it, or settles, which does not. -/
theorem proceed_atMost (hp : p.Within computing) (rounds : Nat) (site : Site) (token : Token) :
    AtMost 1 (proceed rounds site token) p := by
  unfold proceed
  refine atMost_of_accords_bind (accords_get_bind (accords_pure p (stillness_holds hp)))
    fun q p₁ hp₁ _ => ?_
  split
  · exact (shift_atMost hp₁ site _ token).bind_pure
  · exact (atMost_of_accords
      (obeyed_settle lawful_shiftless rounds site _ p₁ (stillness_holds hp₁))).mono (by omega)

/-- **One round** shifts at most one token. -/
theorem round_atMost (hp : p.Within computing) (rounds : Nat) (site : Site) :
    AtMost 1 (round rounds site) p := by
  have h := lawful_shiftless
  unfold round
  split
  · exact (atMost_of_accords (obeyed_settle h rounds site none p (stillness_holds hp))).mono
      (by omega)
  · refine atMost_of_accords_bind (obeyed_nextToken h rounds p (stillness_holds hp))
      fun token p₁ hp₁ _ => ?_
    refine atMost_of_accords_bind (accords_get_bind (accords_pure p₁ (stillness_holds hp₁)))
      fun q p₁ hp₁ _ => ?_
    split
    · next t _ =>
      split
      · refine atMost_of_accords_bind (accords_emit h.lenient (stillness_holds hp₁) rfl)
          fun _ p₂ hp₂ _ => ?_
        refine atMost_of_accords_bind
          (accords_discard (obeyed_finish h rounds _ p₂ (stillness_holds hp₂))) ?_
        intro _ p₃ hp₃ _
        refine atMost_of_accords_bind (accords_get_bind (accords_pure p₃ (stillness_holds hp₃)))
          fun q p₃ hp₃ _ => ?_
        refine atMost_of_accords_bind (obeyed_nextToken h rounds p₃ (stillness_holds hp₃))
          fun token' p₄ hp₄ _ => ?_
        exact proceed_atMost hp₄ rounds _ token'
      · exact (shift_atMost hp₁ site t token).bind_pure
    · exact (atMost_of_accords (obeyed_settle h rounds site _ p₁ (stillness_holds hp₁))).mono
        (by omega)

/-- Where no transition leads on nothing is shifted. -/
theorem round_atMost_of_settles {rounds : Nat} {site : Site} (hp : p.Within computing)
    (hsettles : Settles rounds site p) :
    AtMost 0 (round rounds site) p := by
  have h := lawful_shiftless
  unfold round
  rcases hsettles with hempty | ⟨token, p₁, hnext, hnone⟩
  · rw [hempty]
    exact atMost_of_accords (obeyed_settle h rounds site none p (stillness_holds hp))
  · split
    · exact atMost_of_accords (obeyed_settle h rounds site none p (stillness_holds hp))
    · refine atMost_of_accords_bind (obeyed_nextToken h rounds p (stillness_holds hp))
        fun token' p₂ hp₂ hnext' => ?_
      obtain ⟨rfl, rfl⟩ := hnext.unique hnext'
      refine atMost_of_accords (accords_get_bind ?_)
      rw [hnone]
      exact obeyed_settle h rounds site _ p₁ (stillness_holds hp₂)

-- ---------------------------------------------------------------------------
-- Towards the end
-- ---------------------------------------------------------------------------

section Measure

variable {g : Grammar (Action TokenQueue)} {kinds : List String} {table : Table}
  {start : Rule (Action TokenQueue)} {tokens leaves : List Token} {site site' : Site} {rounds : Nat}

/-- A parse under way stands at a state of its table. -/
theorem Opens.mem (h : Opens g kinds table start tokens leaves site p) : site.state ∈ table := by
  obtain ⟨top, below, -, rfl, hhead, -⟩ := h
  cases hhead with
  | first hsite => exact hsite.mem
  | later hstand =>
    obtain ⟨_, _, _, _, hseat⟩ := hstand.exists_seat
    exact hseat.sits.mem

/-- Before the input ends no more tokens were read than there are. -/
theorem Opens.length_le (h : Opens g kinds table start tokens leaves site p)
    (hinput : ∀ t ∈ leaves, t.isEnd = false) : leaves.length ≤ tokens.length := by
  obtain ⟨_, _, _, _, _, hparse⟩ := h
  obtain ⟨q, -, -, ends, hends, hsplit⟩ := hparse.fed
  rcases List.append_eq_append_iff.mp hsplit with ⟨more, rfl, -⟩ | ⟨more, rfl, hmore⟩
  · rw [List.length_append]
    omega
  · -- what was read behind the input would be end tokens
    cases more with
    | nil => rw [List.append_nil]
    | cons e more =>
      have he := hends e (hmore ▸ List.mem_append_left _ List.mem_cons_self)
      rw [hinput e (List.mem_append_right _ List.mem_cons_self)] at he
      cases he

/-- Where something was read, a pattern is under way above the frame of the start rule. -/
theorem Opens.standing (h : Opens g kinds table start tokens leaves site p)
    (hleaves : leaves ≠ []) :
    ∃ top below, p.stack = some (top :: below) ∧ site = top.site ∧
      Standing g kinds table start (top :: below) leaves := by
  obtain ⟨top, below, hstack, hsite, hhead, -⟩ := h
  cases hhead with
  | first => exact absurd rfl hleaves
  | later hstand => exact ⟨top, below, hstack, hsite, hstand⟩

/-- How far a parse is at the head of a round: tokens of the input are read, or its end was, and
then no transition leads on and only the frame of the start rule is below. -/
inductive Underway (g : Grammar (Action TokenQueue)) (kinds : List String) (table : Table)
    (start : Rule (Action TokenQueue)) (tokens leaves : List Token) (site : Site)
    (p : Parser TokenQueue) : Prop
  | reading (hopens : Opens g kinds table start tokens leaves site p)
      (hinput : ∀ t ∈ leaves, t.isEnd = false)
  | ended (hopens : Opens g kinds table start tokens leaves site p)
      (hempty : site.state.transitions = [])
    (hheight : p.height = 2) (hleaves : leaves ≠ []) (hlength : leaves.length ≤ tokens.length + 1)

/-- And it has opened its start rule. -/
theorem Underway.opens (h : Underway g kinds table start tokens leaves site p) :
    Opens g kinds table start tokens leaves site p := by
  cases h with
  | reading hopens | ended hopens => exact hopens

/-- It has read no more than the tokens of the input and one end token. -/
theorem Underway.length_le (h : Underway g kinds table start tokens leaves site p) :
    leaves.length ≤ tokens.length + 1 := by
  cases h with
  | reading hopens hinput => exact Nat.le_succ_of_le (hopens.length_le hinput)
  | ended _ _ _ _ hlength => exact hlength

/-- As long as transitions lead on the input has not ended. -/
theorem Underway.length_le_of_mem (h : Underway g kinds table start tokens leaves site p)
    {t : Transition} (ht : t ∈ site.state.transitions) : leaves.length ≤ tokens.length := by
  cases h with
  | reading hopens hinput => exact hopens.length_le hinput
  | ended _ hempty =>
    rw [hempty] at ht
    cases ht

/-- What can still be done: each token still to be read may push some frames, and all frames have to
be completed. -/
def prospect (width : Nat) (tokens leaves : List Token) (p : Parser TokenQueue) : Nat :=
  (tokens.length + 1 - leaves.length) * (width + 2) + p.height

variable (htable : TableOf g table) (hends : g.EndsOnce start.name)

include htable hends

/-- Behind an end token that was read there is nothing left to read. -/
theorem underway_of_end {token : Token} {t : Transition} (hsite : site.state ∈ table)
    (h : Opens g kinds table start tokens (leaves ++ [token]) site' p')
    (ht : t ∈ site.state.transitions) (hmatch : t.token.Matches kinds token)
    (hkey : site'.state.key = t.target) (hend : token.isEnd = true)
    (hlength : leaves.length ≤ tokens.length) :
    Underway g kinds table start tokens (leaves ++ [token]) site' p' := by
  have hpath := (htable.path _ hsite t).mp ht
  obtain ⟨hlast, hname, hunreferenced⟩ := hends.last hpath (hmatch.kind_of_isEnd hend)
  have hne : leaves ++ [token] ≠ [] := List.append_ne_nil_of_right_ne_nil _ (List.cons_ne_nil _ _)
  refine .ended h ?_ ?_ hne (by rw [List.length_append, List.length_singleton]; omega)
  · refine List.eq_nil_iff_forall_not_mem.mpr fun t' ht' => hlast t' ?_
    rw [← hkey]
    exact (htable.path _ h.mem t').mp ht'
  · obtain ⟨top, below, hstack, rfl, hstand⟩ := h.standing hne
    rw [height_of_stack hstack]
    generalize leaves ++ [token] = read at hstand
    obtain @⟨_, _, r, pattern, index, _, _, _, hbelow, hseat, -, -⟩ := hstand
    have hkey' : top.site.state.key = ⟨r.id, some pattern, index⟩ := hseat.key_eq
    rw [← hkey, hkey'] at hname
    -- the frame below cannot wait for the start rule at a reference
    cases hbelow with
    | root => rfl
    | inner _ hseat' hd hterminal hs =>
      refine absurd ?_ (hunreferenced _ hseat'.mem_rules
        _ (List.mem_of_getElem? hseat'.pattern_eq) _ (List.mem_of_getElem? hd)
        (by simpa [Descriptor.isTerminal] using hterminal))
      exact (Grammar.name_of_find?_eq_some hs).symm.trans hname

/-- **The measure.** A round that is not the last one completes a pattern and shifts nothing, or
reads one token more; either way there is less left to do. -/
theorem Underway.advance {width : Nat}
    (hwidth : ∀ s ∈ table, ∀ t ∈ s.transitions, t.skipped.length ≤ width)
    (h : Underway g kinds table start tokens leaves site p)
    (hadvances : Advances g kinds table start tokens leaves rounds site p site' p') :
    ∃ leaves', Underway g kinds table start tokens leaves' site' p' ∧
      prospect width tokens leaves' p' < prospect width tokens leaves p ∧
      (leaves' = leaves ∧ Settles rounds site p ∨ leaves'.length = leaves.length + 1) := by
  cases hadvances with
  | completes hopens hsettles hheight =>
    cases h with
    | reading _ hinput =>
      refine ⟨leaves, .reading hopens hinput, ?_, .inl ⟨rfl, hsettles⟩⟩
      unfold prospect
      omega
    | ended _ _ hheight' hleaves =>
      -- the start rule would be under way with no frame below
      obtain ⟨top, below, hstack, -, hstand⟩ := hopens.standing hleaves
      rw [height_of_stack hstack, List.length_cons] at hheight
      exact absurd (List.length_eq_zero_iff.mp (by omega)) hstand.below_ne_nil
  | @reads token t hopens ht hmatch hkey hheight =>
    have hlength := h.length_le_of_mem ht
    have hskipped := hwidth _ h.opens.mem t ht
    refine ⟨leaves ++ [token], ?_, ?_, .inr (by rw [List.length_append, List.length_singleton])⟩
    · cases hend : token.isEnd with
      | true => exact underway_of_end htable hends h.opens.mem hopens ht hmatch hkey hend hlength
      | false =>
        cases h with
        | reading _ hinput =>
          refine .reading hopens fun t ht => ?_
          rcases List.mem_append.mp ht with ht | ht
          · exact hinput t ht
          · rw [List.mem_singleton.mp ht]
            exact hend
        | ended _ hempty =>
          rw [hempty] at ht
          cases ht
    · unfold prospect
      rw [List.length_append, List.length_singleton]
      obtain ⟨left, hleft⟩ : ∃ left, tokens.length + 1 - leaves.length = left + 1 :=
        ⟨tokens.length - leaves.length, by omega⟩
      have hleft' : tokens.length + 1 - (leaves.length + 1) = left := by omega
      rw [hleft, hleft', Nat.succ_mul]
      omega

variable (hpure : g.Pure) (hstart : start ∈ g.rules) (htokens : ∀ t ∈ tokens, t.isEnd = false)

include hpure hstart htokens

/-- **All rounds.** If there are more of them than there is left to do, they come to something, and
at most the tokens still to be read are shifted, and one more. -/
theorem iterate_atMost {width : Nat}
    (hwidth : ∀ s ∈ table, ∀ t ∈ s.transitions, t.skipped.length ≤ width) {n : Nat}
    (hp : p.Within computing) (h : Underway g kinds table start tokens leaves site p)
    (hn : prospect width tokens leaves p < n) :
    AtMost (tokens.length + 1 - leaves.length) (iterate (round rounds) n site) p := by
  induction n generalizing leaves site p with
  | zero => exact absurd hn (Nat.not_lt_zero _)
  | succ n ih =>
    have hlength := h.length_le
    rw [iterate_succ]
    -- a round that only completes patterns leaves all shifts to the others, any other one
    -- takes one of them
    have hsplit : ∃ count, AtMost count (round rounds site) p ∧ count ≤ 1 ∧
        count ≤ tokens.length + 1 - leaves.length ∧ (Settles rounds site p → count = 0) := by
      by_cases hsettles : Settles rounds site p
      · exact ⟨0, round_atMost_of_settles hp hsettles, Nat.zero_le _, Nat.zero_le _, fun _ => rfl⟩
      · cases h with
        | reading hopens hinput =>
          have := hopens.length_le hinput
          exact ⟨1, round_atMost hp rounds site, Nat.le_refl 1,
            by omega, fun h => absurd h hsettles⟩
        | ended _ hempty => exact absurd (.inl hempty) hsettles
    obtain ⟨count, hround, hone, hcount, hnone⟩ := hsplit
    refine (hround.bind fun next p' hreturns => ?_).mono (Nat.le_of_eq (Nat.add_sub_cancel' hcount))
    rcases round_advances htable hpure hstart htokens h.opens hreturns
      with ⟨site', rfl, hadvances⟩ | rfl
    · obtain ⟨leaves', h', hless, hleaves'⟩ := h.advance htable hends hwidth hadvances
      have hle : tokens.length + 1 - leaves'.length ≤
          tokens.length + 1 - leaves.length - count := by
        rcases hleaves' with ⟨rfl, hsettles⟩ | hmore
        · rw [hnone hsettles, Nat.sub_zero]
        · omega
      exact (ih (hp.round hreturns) h' (by omega)).mono hle
    · exact ⟨nofun, Nat.zero_le _⟩

end Measure

-- ---------------------------------------------------------------------------
-- The whole parse
-- ---------------------------------------------------------------------------

/-- No transition of a table passes more states. -/
def passed (table : Table) : Nat :=
  (table.flatMap State.transitions).foldr (fun t longest => max t.skipped.length longest) 0

/-- No transition passes more states than the longest one. -/
theorem length_le_passed {table : Table} {s : State} (hs : s ∈ table) {t : Transition}
    (ht : t ∈ s.transitions) : t.skipped.length ≤ passed table := by
  unfold passed
  have hmem : t ∈ table.flatMap State.transitions := List.mem_flatMap_of_mem hs ht
  generalize table.flatMap State.transitions = transitions at hmem
  induction transitions with
  | nil => cases hmem
  | cons t' rest ih =>
    rcases List.mem_cons.mp hmem with rfl | hmem
    · exact Nat.le_max_left ..
    · exact (ih hmem).trans (Nat.le_max_right ..)

/-- A parse shifts what its rounds do. -/
theorem parse_atMost {rounds : Nat} {rule : String} {q : TokenQueue} (hstale : p.isStale = false)
    (hrounds : ∀ r state, p.grammar.find? rule = some r →
      p.table.find? ⟨r.id, none, 0⟩ = some state →
      AtMost count (iterate (round rounds) rounds ⟨p.table, state⟩) { p with
        source := some q, stack := some [{ site := ⟨p.table, state⟩, action := none }] }) :
    AtMost count (parse rounds rule q) p := by
  unfold parse
  have hframes {k : List (Frame TokenQueue) → Run (Parser TokenQueue) Value}
      (hk : ∀ fs p, AtMost 0 (k fs) p) (p : Parser TokenQueue) : AtMost 0 (frames >>= k) p :=
        AtMost.after rfl (hk _ p)
  cases hfind : p.grammar.find? rule with
  | none =>
    have hrun : (prepare rule).run p = ⟨.error (.grammar (.unknownStart rule)), p, []⟩ := by
      simp [prepare, hfind]
    constructor <;> rw [run_bind, hrun]
    · simp
    · exact Nat.zero_le _
  | some r =>
    have hrun : (prepare rule).run p = ⟨.ok r, p, []⟩ := by simp [prepare, hfind, hstale]
    refine AtMost.after hrun (AtMost.after rfl (AtMost.after rfl ?_))
    dsimp only
    split
    · exact (atMost_fail (by simp)).mono (Nat.zero_le _)
    · next state hstate =>
      refine AtMost.after rfl ((hrounds r state hfind hstate).bind fun _ p₂ _ =>
        hframes (fun fs p => ?_) p₂)
      split
      · exact atMost_fail (by simp)
      · exact AtMost.after rfl (atMost_pure _)

/--
**A parse comes to an end.** If the tables of a grammar can be made, and the end of the input is
asked for at most once and last, the parse of a queue of tokens returns or fails after finitely many
rounds, whatever the actions compute; and at most one token more is shifted than the queue holds.
-/
theorem parse_ends {p p' : Parser TokenQueue} {q : TokenQueue} {rule : String}
    (hcompiles : updateTable.Returns p () p')
    (hactions : ∀ r ∈ p.grammar.rules ++ p.former, ∀ s ∈ r.patterns,
      ∀ action, s.action = some action → ∀ values, (action values).Computes)
    (hends : p.grammar.EndsOnce rule) (hpending : q.pending = none)
    (htokens : ∀ t ∈ q.left, t.isEnd = false) :
    ∃ o, Run.Ends (fun rounds => parse rounds rule q) p' o ∧
      shifts o.trace ≤ q.left.length + 1 := by
  obtain ⟨-, htable, ⟨memo, stack, hp'⟩, -⟩ := updateTable_returns hcompiles
  have hgrammar : p'.grammar = p.grammar := by rw [hp']
  have hwithin : ∀ r ∈ p'.grammar.rules ++ p'.former,
      ∀ s ∈ r.patterns, Action.Within computing s.action := by
    have hformer : p'.former = p.former := by rw [hp']
    rw [hgrammar, hformer]
    exact fun r hr s hs action haction values => (hactions r hr s hs action haction values).within
  have hpure : p.grammar.Pure := by
    intro r hr s hs action haction values
    rcases hactions r (List.mem_append_left _ hr) s hs action haction values with
      hdone | ⟨fault, -, hfail⟩
    · exact .inl hdone
    · exact .inr ⟨fault, hfail⟩
  -- the measure at the start
  have hrounds (rounds : Nat) (hmany : (q.left.length + 1) * (passed p'.table + 2) + 1 < rounds) :
      AtMost (q.left.length + 1) (parse rounds rule q) p' := by
    refine parse_atMost (by rw [hp']) fun r state hfind hstate => ?_
    rw [hgrammar] at hfind
    obtain rfl := Grammar.name_of_find?_eq_some hfind
    have hkey := Table.key_of_find?_eq_some hstate
    have hopens : Opens p.grammar p'.keywordKinds p'.table r q.left [] ⟨p'.table, state⟩
        { p' with
          source := some q, stack := some [{ site := ⟨p'.table, state⟩, action := none }] } := by
      refine ⟨_, [], rfl, rfl, .first ⟨rfl, by rw [hkey]; exact hstate⟩ hkey rfl, hgrammar, rfl,
        rfl, q, rfl, htokens, [], List.forall_mem_nil _, ?_⟩
      rw [hpending, List.append_nil]
      rfl
    have hstart : Parser.Within computing
        { p' with
          source := some q, stack := some [{ site := ⟨p'.table, state⟩, action := none }] } :=
      ⟨hwithin, fun f hf => (List.mem_singleton.mp hf) ▸ Action.within_none⟩
    exact iterate_atMost htable hends hpure (Grammar.mem_of_find?_eq_some hfind) htokens
      (fun s hs t => length_le_passed hs) hstart (.reading hopens (List.forall_mem_nil _)) hmany
  have hqueue : Stable (TokenSource.next : Nat → Run TokenQueue Token) :=
    stable_const TokenQueue.next
  have hstable := stable_parse hqueue rule q
  have hlast := hrounds _ (Nat.lt_succ_self _)
  exact ⟨_, hstable.ends hlast.finished, hlast.shifts_le⟩

/-- Records up to the end of the input, each a word with any number of groups of numbers
behind it. -/
private def records : Parser TokenQueue where
  grammar :=
    { rules :=
        [{ id := ⟨"file", 0⟩, patterns := [.ofTokens [⟨.reference, "record"⟩, .atEnd] none] },
          { id := ⟨"record", 1⟩
            patterns := [.ofTokens [⟨.category, "ID"⟩, ⟨.reference, "group"⟩]
              (some fun values => .done (.series values))]
            markedOptional := true
            repeatable := true },
          { id := ⟨"group", 2⟩
            patterns := [.ofTokens [⟨.category, "INT"⟩, ⟨.reference, "mark"⟩] none]
            markedOptional := true
            repeatable := true },
          { id := ⟨"mark", 3⟩, patterns := [.ofTokens [⟨.literal, ";"⟩] none],
            markedOptional := true }]
      distinct := by decide }
  declared := 4
  stamped := by decide

/-- The tokens of two records. -/
private def twoRecords : TokenQueue :=
  .ofTokens "records"
    [("ID", .text "a", none), ("INT", .number 1, none), ("LITERAL", .text ";", none),
      ("INT", .number 2, none), ("ID", .text "b", none)]

/-- The actions of the records do nothing but compute. -/
private theorem computes_records :
    ∀ r ∈ records.grammar.rules ++ records.former, ∀ s ∈ r.patterns, ∀ action,
    s.action = some action → ∀ values, (action values).Computes := by
  intro r hr pattern hpattern action haction values
  simp only [records, List.append_nil, List.mem_cons, List.not_mem_nil, or_false] at hr
  rcases hr with rfl | rfl | rfl | rfl <;>
    simp only [List.mem_singleton] at hpattern <;>
    subst hpattern <;>
    cases haction
  exact .inl ⟨.series values, rfl⟩

/-- The parse of two records ends, with their five tokens shifted and the end of the input. -/
theorem parse_ends_records :
    (((parse 20 "file" twoRecords).run (updateTable.run records).state).result.toOption.isSome ∧
      shifts ((parse 20 "file" twoRecords).run (updateTable.run records).state).trace = 6) ∧
    ∃ o, Run.Ends (fun rounds => parse rounds "file" twoRecords) (updateTable.run records).state o ∧
      shifts o.trace ≤ twoRecords.left.length + 1 := by
  have hcompiles : updateTable.Returns records () (updateTable.run records).state :=
    Run.returns_of_result (by decide +kernel)
  exact ⟨by decide +kernel, parse_ends hcompiles computes_records (by decide) rfl (by decide)⟩

end Parser

end GrammarEngine
