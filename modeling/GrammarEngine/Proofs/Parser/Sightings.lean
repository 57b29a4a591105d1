import GrammarEngine.Proofs.Parser.Looking
import GrammarEngine.Proofs.Parser.Places
import GrammarEngine.Proofs.Parser.Support

/-!
# What actions see of positions

In a parse whose actions at most look around the stack is charted at the head of every round
(`Oriented`). So a frame that a round comes to complete has an instance of its pattern and bears the
positions of that, and these are what its action is told. The instances in it have been through the
same before (`Seen`).

An action that only looks leaves the token and the table as they are. So where the rule starts over,
the second look finds what the first one found, and the stack goes on from there with another
instance of the rule.

Main results:

* `Oriented.round`, `Reaches.oriented` — the stack is charted at the head of every round.
* `Oriented.calls` — what an action is told where it is called.
* `positions_seen` — in a parse all actions are told where their instances and the elements are.
-/

namespace GrammarEngine

namespace Parser

open Grammar Run

/-- A parser tells an action where an instance and what fills its elements begin. -/
structure Sees {σ : Type} [TokenSource σ] (p : Parser σ) (first : Token)
    (slots : List (List (Tree σ))) : Prop where
  position_eq : p.position = first.position
  positions_eq : p.positions = some (slots.map Tree.placeOf)

/-- In the course of a parse the action of a pattern, if there is one, has been called
for an instance. -/
def Seen {σ : Type} [TokenSource σ] (p₀ : Parser σ) (rounds : Nat) (rule : String)
    (source : σ) : Tree.Trait σ :=
  fun pattern first slots => ∀ action, pattern.action = some action → ∃ site p values p',
    Reaches p₀ rounds rule source site p ∧ Calls rounds p site action values p' ∧
    Sees p' first slots

/-- In a parse of a queue of tokens an action is called for an instance of its pattern, with these
trees for the elements, and it is told where that and the elements are. -/
structure CalledFor (p₀ : Parser TokenQueue) (rounds : Nat) (rule : String) (q : TokenQueue)
    (action : Action TokenQueue) (values : List Value) (p : Parser TokenQueue)
    (pattern : Pattern (Action TokenQueue))
    (first : Token) (slots : List (List (Tree TokenQueue))) : Prop extends Sees p first slots where
  mem_patterns : ∃ r ∈ p₀.grammar.rules, pattern ∈ r.patterns
  action_eq : pattern.action = some action
  row : OccupiesRow p₀.grammar p₀.keywordKinds (Seen p₀ rounds rule q) pattern.tokens slots
  head_eq : (Tree.leavesOf slots.flatten).head? = some first
  /-- The tokens of the instance are the last ones that were read of the input. -/
  read_last : ∃ front ends q', p.source = some q' ∧ (∀ e ∈ ends, e.isEnd = true) ∧
    front ++ Tree.leavesOf slots.flatten ++ (q'.pending.toList ++ q'.left) = q.left ++ ends
  /-- The action comes to what it makes of the answers, and leaves the parser as it was. -/
  performs : ∃ result, (action values).told first.position values (slots.map Tree.placeOf) =
    some result ∧ (perform (action values)).run p = ⟨result, p, []⟩

variable {g : Grammar (Action TokenQueue)} {kinds : List String} {trait : Tree.Trait TokenQueue}
  {table : Table}
  {start : Rule (Action TokenQueue)} {tokens : List Token} {marks : List (Mark TokenQueue)}
  {K : List (Mark TokenQueue) → Option Token → Parser TokenQueue → Prop}
  {p p' p₁ : Parser TokenQueue} {rounds : Nat} {site : Site}

-- ---------------------------------------------------------------------------
-- Completing frames
-- ---------------------------------------------------------------------------

/-- What the stack is after a frame of a rule was completed: an element more of the frame below is
filled, or the start rule has its instances. If the rule repeats, another instance may follow. -/
structure HandsOn (g : Grammar (Action TokenQueue)) (kinds : List String)
    (trait : Tree.Trait TokenQueue) (table : Table) (start r : Rule (Action TokenQueue))
    (leaves : List Token) (parent : Frame TokenQueue) (rest : List (Frame TokenQueue)) : Prop where
  again : r.repeatable = true →
    ∀ coming, Charting g kinds trait table start (parent :: rest) r leaves coming
  filled : (rest = [] ∧ ∃ trees, Occupies g kinds trait ⟨.reference, start.name⟩ trees ∧
    Tree.leavesOf trees = leaves) ∨ Charted g kinds trait table start (parent :: rest) leaves

/-- The innermost frame is completed: the token goes back, and what the frame has is an
instance of its rule. -/
theorem Ledger.finish_charted (hledger : Ledger g kinds table tokens K) (htable : TableOf g table)
    (hlooks : g.Looks) (hstart : start ∈ g.rules)
    {token : Option Token} {done : Bool} {f : Frame TokenQueue} {below : List (Frame TokenQueue)}
    (hcharted : Charted g kinds trait table start (f :: below) (Mark.tokens marks))
    (hreducible : f.site.state.reducible = true) (hstack : p.stack = some (f :: below))
    (hK : K marks token p)
    (htrait : ∀ {r pattern first slots}, Fulfils g kinds trait f r pattern first slots →
      trait pattern first slots) (h : (finish rounds token).Returns p done p') :
    done = false ∧ K marks none p' ∧
      (∃ p₁, (giveBack token).Returns p () p₁ ∧ p'.source = p₁.source) ∧ ∃ r parent rest,
        r ∈ g.rules ∧ f.site.state.key.rule = r.id ∧ p'.stack = some (parent :: rest) ∧
        HandsOn g kinds trait table start r (Mark.tokens marks) parent rest := by
  obtain ⟨p₁, hback, ⟨root, _, hroot, -⟩ | ⟨frame, parent, rest, hframe, rfl, hreduce⟩⟩ :=
    finish_returns h
  · -- a frame that is charted is never the only one
    rw [hstack, Option.some.injEq, List.cons.injEq] at hroot
    exact absurd hroot.2 hcharted.below_ne_nil
  · rw [hstack, Option.some.injEq, List.cons.injEq] at hframe
    obtain ⟨rfl, rfl⟩ := hframe
    have hK₁ := hledger.unread hK hback
    obtain ⟨r, pattern, first, slots, front, hfulfils, hleaves, hcharting⟩ :=
      hcharted.complete htable hreducible
    obtain ⟨-, values, v, p₂, parent', rest', -, hcall, hstack', rfl⟩ := reduce_returns hreduce
    obtain ⟨hstack'', hsource, hkept⟩ := callAction_looks (fun action haction =>
      hlooks _ hfulfils.mem_rules _ hfulfils.mem_patterns _
        (hfulfils.action_eq.symm.trans haction) _) hcall
    rw [hstack''] at hstack'
    obtain ⟨rfl, rfl⟩ := List.cons.inj (Option.some.inj hstack')
    have hK₂ := hledger.of_source (hledger.setStack hK₁ _) hkept hsource
    have hrule : f.key.rule = r.id := hfulfils.rule_eq
    refine ⟨rfl, hledger.setStack hK₂ _, ⟨p₁, hback, hsource⟩, r, _, rest, hfulfils.mem_rules,
      hfulfils.rule_eq, rfl, ?_⟩
    have htree : Instantiates g kinds trait r (.node pattern first slots) :=
      .node hfulfils.mem_patterns hfulfils.row hfulfils.head_eq (htrait hfulfils)
    have hfirst : (Tree.node pattern first slots).leaves.head? = some first := by
      rw [leaves_node]
      exact hfulfils.head_eq
    obtain ⟨hagain, hfilled⟩ := hcharting.insert hstart htree hfirst v
    rw [hleaves, ← leaves_node pattern first slots, hfulfils.first_eq, hrule,
      repeats_of_mem (hledger.parsing hK₂).grammar_eq hfulfils.mem_rules]
    exact ⟨hagain, hfilled⟩

-- ---------------------------------------------------------------------------
-- The head of a round
-- ---------------------------------------------------------------------------

/-- The stack when a round begins: nothing has been read yet, or a pattern is under way. -/
inductive Scene (g : Grammar (Action TokenQueue)) (kinds : List String)
    (trait : Tree.Trait TokenQueue) (table : Table)
    (start : Rule (Action TokenQueue)) : List (Frame TokenQueue) → List Token → Prop
  | first {root : Frame TokenQueue} (hsite : Sits table root.site)
      (hkey : root.key = ⟨start.id, none, 0⟩) : Scene g kinds trait table start [root] []
  | later {frames : List (Frame TokenQueue)} {leaves : List Token}
      (h : Charted g kinds trait table start frames leaves) :
      Scene g kinds trait table start frames leaves

/-- Where a transition loops back a pattern of a rule that repeats is under way, and may end. The
transition is a way into the rule. -/
theorem Scene.of_loopBack (htable : TableOf g table) (hstart : start ∈ g.rules)
    {top : Frame TokenQueue} {below : List (Frame TokenQueue)} {leaves : List Token}
    (h : Scene g kinds trait table start (top :: below) leaves)
    {t : Transition} (hmem : t ∈ top.site.state.transitions) (hloop : t.loopBack = true) :
    Charted g kinds trait table start (top :: below) leaves ∧ Sits table top.site ∧
      top.site.state.reducible = true ∧
      ∃ r ∈ g.rules, r.id = top.site.state.key.rule ∧ r.repeatable = true ∧
        ∃ pattern, g.Way r pattern 0 t.skipped t.target t.token := by
  cases h with
  | first hsite hkey =>
    rw [(way_of_entry htable hstart hsite hkey hmem).1] at hloop
    cases hloop
  | later h =>
    obtain ⟨_, _, _, _, hseat⟩ := h.exists_seat
    obtain ⟨hending, hagain⟩ := ((htable.path _ hseat.sits.mem t).mp hmem).of_loopBack hloop
    exact ⟨h, hseat.sits, (htable.reducible _ hseat.sits.mem).mpr hending, hagain⟩

/-- A round begins at the state of the innermost frame, with the stack charted and an account of
what was read. -/
def Oriented (g : Grammar (Action TokenQueue)) (kinds : List String) (trait : Tree.Trait TokenQueue)
    (table : Table) (start : Rule (Action TokenQueue))
    (K : List (Mark TokenQueue) → Option Token → Parser TokenQueue → Prop)
    (site : Site) (p : Parser TokenQueue) : Prop :=
  ∃ top below marks, p.stack = some (top :: below) ∧ site = top.site ∧
    Scene g kinds trait table start (top :: below) (Mark.tokens marks) ∧ K marks none p

/-- The parse is over: some trees are the input, with end tokens behind it. -/
def Comprises (g : Grammar (Action TokenQueue)) (kinds : List String)
    (trait : Tree.Trait TokenQueue)
    (start : Rule (Action TokenQueue)) (tokens : List Token) : Prop :=
  ∃ trees ends, (∀ e ∈ ends, e.isEnd = true) ∧ Tree.leavesOf trees = tokens ++ ends ∧
    Occupies g kinds trait ⟨.reference, start.name⟩ trees

/-- A frame that was completed in a parse has had its action called with the positions
that it bore. -/
theorem seen_of_finish {p₀ p₂ : Parser TokenQueue} {rule : String} {q : TokenQueue}
    {token : Option Token} {done : Bool} {f : Frame TokenQueue} {below : List (Frame TokenQueue)}
    {r : Rule (Action TokenQueue)} {pattern : Pattern (Action TokenQueue)} {first : Token}
    {slots : List (List (Tree TokenQueue))} (hreach : Reaches p₀ rounds rule q site p)
    (hfinishing : Finishing rounds p site token p₁) (hstack : p₁.stack = some (f :: below))
    (hne : below ≠ []) (h : (finish rounds token).Returns p₁ done p₂)
    (hfulfils : Fulfils g kinds trait f r pattern first slots) :
    Seen p₀ rounds rule q pattern first slots := by
  intro action haction
  obtain ⟨parent, rest, rfl⟩ := List.exists_cons_of_ne_nil hne
  obtain ⟨values, p', hcalls, hposition, hpositions⟩ :=
    calls_of_finish hfinishing hstack (hfulfils.action_eq.trans haction) h
  refine ⟨site, p, values, p', hreach, hcalls, hposition.trans hfulfils.first_eq, ?_⟩
  rw [hpositions, hfulfils.positions_eq]

-- ---------------------------------------------------------------------------
-- Rounds
-- ---------------------------------------------------------------------------

/-- A shift leads to the head of the next round, if it leaves the stack charted. -/
theorem Ledger.shift_oriented (hledger : Ledger g kinds table tokens K)
    {token : Token} {t : Transition} {target : Site}
    (hK : K marks (some token) p) (h : (shift site t token).Returns p target p')
    (hcharted : ∀ {top rest}, Enters p site token (site.state.key.pattern.isSome &&
      !t.loopBack) (t.skipped ++ [t.target]) (p.stack.getD []) (top :: rest) →
        Charted g kinds trait table start (top.insert t.target.index token.value token.position
          false :: rest) (Mark.tokens marks ++ [token])) :
    Oriented g kinds trait table start K target p' := by
  obtain ⟨htarget, -, top, rest, henter, hstack⟩ := shift_returns h
  refine ⟨_, rest, _, hstack, (henter.site_eq htarget).symm, .later ?_, hledger.shifted hK h⟩
  rw [Mark.tokens_append, Mark.tokens_append, Mark.tokens_map_opens]
  exact hcharted henter

section Rounds

variable {p₀ : Parser TokenQueue} {rule : String} {q : TokenQueue}
  (hledger : Ledger g kinds table tokens K)
  (htable : TableOf g table) (hlooks : g.Looks) (hstart : start ∈ g.rules)

include hledger htable hlooks hstart

/-- **Where the rule starts over** the second look finds what the first one found: the token
is the same, and there is a transition for it that loops back. The stack waits for another
instance of the rule. -/
theorem Oriented.looksAgain (hhead : Oriented g kinds (Seen p₀ rounds rule q) table start K site p)
    (hreach : Reaches p₀ rounds rule q site p) {again : Site} {token : Token}
    (h : LooksAgain rounds p site again token p₁) :
    ∃ t r other marks, again.table = table ∧
      again.state.transition? p₁.keywordKinds token = some t ∧ t.loopBack = true ∧ r ∈ g.rules ∧
      g.Way r other 0 t.skipped t.target t.token ∧ K marks (some token) p₁ ∧ Charting g kinds
        (Seen p₀ rounds rule q) table start (p₁.stack.getD []) r (Mark.tokens marks) token := by
  obtain ⟨top, below, marks, hstack, rfl, hscene, hK⟩ := hhead
  obtain @⟨first, token, t, done, p₂, p₃, _, hfirst, ht, hloop, hfinish, hnext⟩ := h
  have hK₂ := hledger.read hK hfirst
  have hstack₂ := (nextToken_stack hfirst).trans hstack
  obtain ⟨hmem, -⟩ := State.matches_of_transition? ht
  obtain ⟨hcharted, hsits, hreducible, r, hr, hid, hrepeat, other, hway⟩ :=
    hscene.of_loopBack htable hstart hmem hloop
  obtain ⟨-, hK₃, ⟨_, hback, hsource⟩, r', parent, rest, hr', hid', hstack₃, hhandsOn⟩ :=
    hledger.finish_charted htable hlooks hstart hcharted hreducible hstack₂ hK₂
      (seen_of_finish hreach (.early hfirst ht hloop) hstack₂ hcharted.below_ne_nil hfinish) hfinish
  obtain rfl := eq_of_id_eq hr' hr (hid'.symm.trans hid.symm)
  obtain rfl := nextToken_of_giveBack hback hsource hnext
  have hK₁ := hledger.read hK₃ hnext
  rw [renewed_of_sits (hledger.parsing hK₃).table_eq hsits, (hledger.parsing hK₁).kinds_eq,
    nextToken_stack hnext, hstack₃]
  rw [(hledger.parsing hK₂).kinds_eq] at ht
  exact ⟨t, r', other, marks, hsits.table_eq, ht, hloop, hr, hway, hK₁, hhandsOn.again hrepeat _⟩

/-- Where a round comes to complete the innermost frame, its pattern may end. -/
theorem Oriented.finishing (hhead : Oriented g kinds (Seen p₀ rounds rule q) table start K site p)
    (hreach : Reaches p₀ rounds rule q site p) {token : Option Token}
    (h : Finishing rounds p site token p₁) :
    ∃ top below marks, p₁.stack = some (top :: below) ∧ site = top.site ∧ site.state.reducible =
      true ∧ Scene g kinds (Seen p₀ rounds rule q) table start (top :: below) (Mark.tokens marks) ∧
      K marks token p₁ := by
  have horiented := hhead
  obtain ⟨top, below, marks, hstack, hsite, hscene, hK⟩ := hhead
  cases h with
  | exhausted _ hreducible => exact ⟨top, below, marks, hstack, hsite, hreducible, hscene, hK⟩
  | stuck _ hnext _ hreducible =>
    exact ⟨top, below, marks, (nextToken_stack hnext).trans hstack, hsite, hreducible, hscene,
      hledger.read hK hnext⟩
  | early hnext ht hloop =>
    subst hsite
    obtain ⟨hmem, -⟩ := State.matches_of_transition? ht
    obtain ⟨-, -, hreducible, -⟩ := hscene.of_loopBack htable hstart hmem hloop
    exact ⟨top, below, marks, (nextToken_stack hnext).trans hstack, rfl, hreducible, hscene,
      hledger.read hK hnext⟩
  | late hlook hnone _ =>
    obtain ⟨t, _, _, _, -, ht, -⟩ := horiented.looksAgain hledger htable hlooks hstart hreach hlook
    rw [hnone] at ht
    cases ht

/-- A round that completes patterns comes to the head of the next one, or to the end. -/
theorem Oriented.settle (htokens : ∀ t ∈ tokens, t.isEnd = false)
    (hhead : Oriented g kinds (Seen p₀ rounds rule q) table start K site p)
    (hreach : Reaches p₀ rounds rule q site p)
    {token : Option Token} {next : Site ⊕ Unit} (hfinishing : Finishing rounds p site token p₁)
    (h : (settle rounds site token).Returns p₁ next p') :
    (∃ site', next = .inl site' ∧ Oriented g kinds (Seen p₀ rounds rule q) table start K site' p') ∨
      (next = .inr () ∧ Comprises g kinds (Seen p₀ rounds rule q) start tokens) := by
  obtain ⟨top, below, marks, hstack, rfl, hreducible, hscene, hK⟩ :=
    hhead.finishing hledger htable hlooks hstart hreach hfinishing
  obtain ⟨-, hsettle⟩ := settle_returns h
  generalize hleaves : Mark.tokens marks = leaves at hscene
  cases hscene with
  | first hsite hkey =>
    rcases hsettle with ⟨hfinish, rfl⟩ | ⟨p₂, hfinish, -⟩
    · obtain ⟨-, -, -, ends, hends, hread⟩ := hledger.finish_root htokens hstack hK hfinish
      have hending := (htable.reducible _ hsite.mem).mp hreducible
      have hkey' : top.site.state.key = ⟨start.id, none, 0⟩ := hkey
      rw [hkey', ending_entry_iff hstart] at hending
      exact .inr ⟨rfl, [], ends, hends, hleaves.symm.trans hread,
        .missing rfl (find?_of_mem hstart) hending⟩
    · obtain ⟨hdone, -⟩ := hledger.finish_root htokens hstack hK hfinish
      cases hdone
  | later hcharted =>
    subst hleaves
    rcases hsettle with ⟨hfinish, rfl⟩ | ⟨p₂, hfinish, hgoes⟩
    all_goals
      obtain ⟨hdone, hK₂, -, r, parent, rest, -, -, hstack₂, hhandsOn⟩ :=
        hledger.finish_charted htable hlooks hstart hcharted hreducible hstack hK
          (seen_of_finish hreach hfinishing hstack hcharted.below_ne_nil hfinish) hfinish
    · cases hdone
    · rcases hgoes with ⟨root, hroot, hfinish', rfl⟩ | ⟨second, third, more, hmany, rfl, rfl⟩
      · -- only the frame of the start rule is left
        rw [hstack₂, Option.some.injEq, List.cons.injEq] at hroot
        obtain ⟨rfl, rfl⟩ := hroot
        rcases hhandsOn.filled with ⟨-, trees, hfilled, htrees⟩ | hcharted'
        · obtain ⟨-, -, -, ends, hends, hread⟩ := hledger.finish_root htokens hstack₂ hK₂ hfinish'
          exact .inr ⟨rfl, trees, ends, hends, htrees.trans hread, hfilled⟩
        · exact absurd rfl hcharted'.below_ne_nil
      · rw [hstack₂, Option.some.injEq, List.cons.injEq] at hmany
        obtain ⟨rfl, rfl⟩ := hmany
        rcases hhandsOn.filled with ⟨hnil, -⟩ | hcharted'
        · cases hnil
        · exact .inl ⟨_, rfl, _, _, _, hstack₂, rfl, .later hcharted', hK₂⟩

/-- **One round.** A round leads from a charted stack to a charted stack, or to the end
of the input. -/
theorem Oriented.round (hplaced : ∀ {marks token p}, K marks (some token) p → token.position.isSome)
    (htokens : ∀ t ∈ tokens, t.isEnd = false)
    (hhead : Oriented g kinds (Seen p₀ rounds rule q) table start K site p)
    (hreach : Reaches p₀ rounds rule q site p)
    {next : Site ⊕ Unit} (h : (round rounds site).Returns p next p') :
    (∃ site', next = .inl site' ∧ Oriented g kinds (Seen p₀ rounds rule q) table start K site' p') ∨
      (next = .inr () ∧ Comprises g kinds (Seen p₀ rounds rule q) start tokens) := by
  by_cases hempty : site.state.transitions = []
  · rw [round_of_nil hempty] at h
    exact hhead.settle hledger htable hlooks hstart htokens hreach
      (.exhausted hempty (settle_returns h).1) h
  rcases round_returns h with ⟨hnil, -⟩ | ⟨token, p₁, hnext, ⟨hnone, hsettle⟩ | ⟨t, ht,
    ⟨target, hloop, rfl, hshift⟩ | ⟨done, token', p₂, p₃, hloop, hfinish, hnext', hproceed⟩⟩⟩
  · exact absurd hnil hempty
  · exact hhead.settle hledger htable hlooks hstart htokens hreach
      (.stuck hempty hnext hnone (settle_returns hsettle).1) hsettle
  · obtain ⟨top, below, marks, hstack, rfl, hscene, hK⟩ := hhead
    have hK₁ := hledger.read hK hnext
    rw [(hledger.parsing hK₁).kinds_eq] at ht
    obtain ⟨hmem, hmatch⟩ := State.matches_of_transition? ht
    refine .inl ⟨target, rfl, hledger.shift_oriented hK₁ hshift fun {top' rest} henter => ?_⟩
    rw [(nextToken_stack hnext).trans hstack, Option.getD_some] at henter
    have hgrammar := (hledger.parsing hK₁).grammar_eq
    generalize Mark.tokens marks = leaves at hscene ⊢
    cases hscene with
    | first hsite hkey =>
      exact charted_of_entry htable hgrammar (hplaced hK₁) hmatch hstart hsite hkey hmem henter
    | later hcharted => exact hcharted.shift htable hgrammar (hplaced hK₁) hmatch hmem hloop henter
  · obtain ⟨t', r, other, marks, hsite, ht', hloop', hr, hway, hK₃, hcharting⟩ :=
      hhead.looksAgain hledger htable hlooks hstart hreach (.intro hnext ht hloop hfinish hnext')
    have hgrammar := (hledger.parsing hK₃).grammar_eq
    rcases proceed_returns hproceed with ⟨t'', target, ht'', rfl, hshift⟩ | ⟨hnone, -⟩
    · rw [ht', Option.some.injEq] at ht''
      subst ht''
      obtain ⟨-, hmatch⟩ := State.matches_of_transition? ht'
      rw [(hledger.parsing hK₃).kinds_eq] at hmatch
      refine .inl ⟨target, rfl, hledger.shift_oriented hK₃ hshift fun {top rest} henter => ?_⟩
      rw [hloop', Bool.not_true, Bool.and_false] at henter
      cases henter with
      | fresh h => exact hcharting.pushes hgrammar hsite (hplaced hK₃) hmatch hr hway h
    · rw [ht'] at hnone
      cases hnone

/-- **Where an action is called** the parser sees an instance of its pattern, the last one
that was read. -/
theorem Oriented.calls (hhead : Oriented g kinds (Seen p₀ rounds rule q) table start K site p)
    (hreach : Reaches p₀ rounds rule q site p) {action : Action TokenQueue} {values : List Value}
    (h : Calls rounds p site action values p') :
    ∃ f r pattern first slots front marks,
      Fulfils g kinds (Seen p₀ rounds rule q) f r pattern first slots ∧
      f.action = some action ∧ Sees p' first slots ∧ K marks none p' ∧
      Mark.tokens marks = front ++ Tree.leavesOf slots.flatten := by
  obtain @⟨token, p₁, p₂, f, parent, below, _, _, hfinishing, hback, hstack, -, haction, -⟩ := h
  obtain ⟨top, rest, marks, hstack₁, rfl, hreducible, hscene, hK⟩ :=
    hhead.finishing hledger htable hlooks hstart hreach hfinishing
  rw [giveBack_stack hback, hstack₁, Option.some.injEq, List.cons.injEq] at hstack
  obtain ⟨rfl, rfl⟩ := hstack
  generalize hleaves : Mark.tokens marks = leaves at hscene
  cases hscene with
  | later hcharted =>
    obtain ⟨r, pattern, first, slots, front, hfulfils, rfl, -⟩ :=
      hcharted.complete htable hreducible
    refine ⟨top, r, pattern, first, slots, front, marks, hfulfils, haction, ⟨hfulfils.first_eq, ?_⟩,
      ?_, hleaves⟩
    · exact congrArg some hfulfils.positions_eq
    · exact hledger.of_source (hledger.unread hK hback)
        ⟨rfl, rfl, rfl, rfl, fun s hs => ⟨s, hs, .refl s⟩⟩ rfl

end Rounds

-- ---------------------------------------------------------------------------
-- The whole parse
-- ---------------------------------------------------------------------------

/-- All heads of the rounds of a parse are charted, and the account is that of its tokens and
their positions. -/
theorem Reaches.oriented {p₀ : Parser TokenQueue} {rule : String} {q : TokenQueue}
    (hlooks : p₀.grammar.Looks)
    (hpending : q.pending = none) (htokens : ∀ t ∈ q.left, t.isEnd = false ∧ t.position.isSome)
    (h : Reaches p₀ rounds rule q site p) :
    ∃ table start, TableOf p₀.grammar table ∧ p₀.grammar.find? rule = some start ∧
      Oriented p₀.grammar p₀.keywordKinds (Seen p₀ rounds rule q) table start
        (Accounts p₀.grammar p₀.keywordKinds table q.left q.messages.messages) site p := by
  induction h with
  | @start p r state hupdate hrule hstate =>
    obtain ⟨-, htable, ⟨memo, stack, hp⟩, -⟩ := updateTable_returns hupdate
    have hgrammar : p.grammar = p₀.grammar := by rw [hp]
    have hkinds : p.keywordKinds = p₀.keywordKinds := by rw [hp]
    have hkey := Table.key_of_find?_eq_some hstate
    have hsits : Sits p.table ⟨p.table, state⟩ := ⟨rfl, by rw [hkey]; exact hstate⟩
    rw [hgrammar] at hrule
    exact ⟨p.table, r, htable, hrule, _, [], [], rfl, rfl, .first hsits hkey,
      accounts_of_source hgrammar rfl hkinds rfl hpending htokens⟩
  | next hreach hround ih =>
    obtain ⟨table, start, htable, hstart, horiented⟩ := ih
    rcases horiented.round ledger_accounts htable hlooks (mem_of_find?_eq_some hstart)
      (fun hK => hK.placed _ rfl)
      (fun t ht => (htokens t ht).1) hreach hround with ⟨site', heq, horiented'⟩ | ⟨heq, -⟩
    · cases heq
      exact ⟨table, start, htable, hstart, horiented'⟩
    · cases heq

/-- **Positions seen by actions.** Take a grammar whose actions do no more than look around, and a
queue of tokens with positions. Wherever an action is called in a parse, the tokens read last are an
instance of its pattern. The action is told the position of the first token of that, and for each
element that of the token, or of the first token of the instance, or of the last one of several, or
nothing where the element is empty; and it changes none of this.

If the parse returns, its input is made of instances the actions of which have been
called in this way. -/
theorem positions_seen {q : TokenQueue} {rule : String} (hlooks : p.grammar.Looks)
    (hpending : q.pending = none) (htokens : ∀ t ∈ q.left, t.isEnd = false ∧ t.position.isSome) :
    (∀ site p₁ action values p', Reaches p rounds rule q site p₁ →
      Calls rounds p₁ site action values p' →
      ∃ pattern first slots, CalledFor p rounds rule q action values p' pattern first slots) ∧
    ∀ v p', (updateTable >>= fun _ => parse rounds rule q).Returns p v p' →
      ∃ trees ends, (∀ e ∈ ends, e.isEnd = true) ∧ Tree.leavesOf trees = q.left ++ ends ∧
        Occupies p.grammar p.keywordKinds (Seen p rounds rule q) ⟨.reference, rule⟩ trees := by
  constructor
  · intro site p₁ action values p' hreach hcalls
    obtain ⟨table, start, htable, hstart, horiented⟩ := hreach.oriented hlooks hpending htokens
    obtain ⟨f, r, pattern, first, slots, front, marks, hfulfils, haction, hsees,
        haccounts, hleaves⟩ :=
      horiented.calls ledger_accounts htable hlooks (mem_of_find?_eq_some hstart) hreach hcalls
    have hpattern : pattern.action = some action := hfulfils.action_eq.symm.trans haction
    refine ⟨pattern, first, slots, hsees, ⟨r, hfulfils.mem_rules, hfulfils.mem_patterns⟩, hpattern,
      hfulfils.row, hfulfils.head_eq, ?_, ?_⟩
    · obtain ⟨q', hq', -, ends, hends, hsplit⟩ := haccounts.parsing.fed
      rw [Option.toList_none, List.append_nil, hleaves] at hsplit
      exact ⟨front, ends, q', hq', hends, hsplit⟩
    · have hvalues : p'.values = some values := by
        cases hcalls
        rfl
      have hperforms := perform_of_looks
        (hlooks r hfulfils.mem_rules pattern hfulfils.mem_patterns action hpattern values) p'
      rw [hsees.position_eq, hsees.positions_eq, hvalues] at hperforms
      exact hperforms
  · intro v p' h
    obtain ⟨site, p₁, hreach, hlast⟩ := reaches_of_parse h
    obtain ⟨table, start, htable, hstart, horiented⟩ := hreach.oriented hlooks hpending htokens
    rcases horiented.round ledger_accounts htable hlooks (mem_of_find?_eq_some hstart)
      (fun hK => hK.placed _ rfl) (fun t ht => (htokens t ht).1) hreach hlast
        with ⟨_, heq, -⟩ | ⟨-, trees, ends, hends, hleaves, hfilled⟩
    · cases heq
    · rw [name_of_find?_eq_some hstart] at hfilled
      exact ⟨trees, ends, hends, hleaves, hfilled⟩

/-- Tells where an instance and its elements are, and what they are. -/
private def sighting : Action TokenQueue := fun values => .here fun first => .slots fun _ places =>
  .done (.list [Action.place first, .list (places.map Action.place), .list values])

/-- A file may have a title, and items that may have labels. -/
private def labelled : Parser TokenQueue where
  grammar :=
    { rules :=
        [{ id := ⟨"file", 0⟩
           patterns :=
             [.ofTokens [⟨.reference, "title"⟩, ⟨.reference, "items"⟩, .atEnd] (some sighting)] },
          { id := ⟨"title", 1⟩
            patterns := [.ofTokens [⟨.literal, "title"⟩, ⟨.category, "ID"⟩] (some sighting)]
            markedOptional := true },
          { id := ⟨"items", 2⟩
            patterns := [.ofTokens [⟨.reference, "label"⟩, ⟨.category, "ID"⟩] (some sighting)]
            repeatable := true },
          { id := ⟨"label", 3⟩
            patterns := [.ofTokens [⟨.category, "INTEGER"⟩, ⟨.literal, ":"⟩] (some sighting)]
            markedOptional := true }]
      distinct := by decide }
  declared := 4
  stamped := by decide

/-- A label in front of two items. -/
private def twoItems : TokenQueue :=
  .ofTokens "words"
    [("INTEGER", .number 1, none), ("LITERAL", .text ":", none), ("ID", .text "a", none),
      ("ID", .text "b", none)]

/-- The value, with all that the actions have seen. -/
private def sightedItems : Value :=
  let label := .list [.text "words:1:1", .list [.text "words:1:1", .text "words:2:1"],
    .list [.number 1, .text ":"]]
  let first := .list [.text "words:1:1", .list [.text "words:1:1", .text "words:3:1"],
    .list [label, .text "a"]]
  let second :=
    .list [.text "words:4:1", .list [.nothing, .text "words:4:1"], .list [.nothing, .text "b"]]
  .list [.text "words:1:1", .list [.nothing, .text "words:4:1", .text "words:5:1"],
    .list [.nothing, .series [first, second], .text "<END>"]]

private theorem action_labelled : ∀ r ∈ labelled.grammar.rules, ∀ pattern ∈ r.patterns,
    pattern.action = some sighting := by
  intro r hr pattern hpattern
  simp only [labelled, List.mem_cons, List.not_mem_nil, or_false] at hr
  rcases hr with rfl | rfl | rfl | rfl <;>
    simp only [List.mem_singleton] at hpattern <;>
    subst hpattern <;>
    rfl

private theorem looks_labelled : labelled.grammar.Looks := by
  intro r hr pattern hpattern action haction values
  obtain rfl := Option.some.inj ((action_labelled r hr pattern hpattern).symm.trans haction)
  exact .here fun _ => .slots fun _ _ => .done _

/-- Two items, the first of which has a label. There is no title; so the file begins with the label,
and the place of its items is that of the last one. The call for the file is one of those that the
theorem is about. -/
theorem positions_seen_items :
    ((updateTable >>= fun _ => parse 9 "file" twoItems).run labelled).result.toOption =
      some sightedItems ∧ ∃ site p values p', Reaches labelled 9 "file" twoItems site p ∧
        Calls 9 p site sighting values p' ∧ p'.position = some ⟨"words", 1, 1⟩ ∧
        ∃ pattern first slots,
          CalledFor labelled 9 "file" twoItems sighting values p' pattern first slots := by
  have hresult : ((updateTable >>= fun _ => parse 9 "file" twoItems).run labelled).result.toOption =
      some sightedItems := by decide +kernel
  obtain ⟨hcalled, hparsed⟩ :=
    @positions_seen labelled 9 twoItems "file" looks_labelled rfl (by decide)
  obtain ⟨trees, ends, -, hleaves, hfile⟩ := hparsed _ _ (returns_of_result hresult)
  refine ⟨hresult, ?_⟩
  cases hfile with
  | terminal ht => cases ht
  | missing => cases hleaves
  | many _ hs hrepeat =>
    have hsingle : (labelled.grammar.find? "file").map (·.repeatable) = some false := by decide
    rw [hs, Option.map_some, hrepeat] at hsingle
    cases hsingle
  | one _ hs _ h =>
    obtain @⟨_, pattern, first, slots, hpattern, -, hfirst, hseen⟩ := h
    rw [Tree.leavesOf_singleton, leaves_node] at hleaves
    rw [hleaves] at hfirst
    have hplace : first.position = some ⟨"words", 1, 1⟩ := by
      rw [← Option.some.inj hfirst]
      rfl
    obtain ⟨site, p, values, p', hreach, hcalls, hsees⟩ :=
      hseen _ (action_labelled _ (mem_of_find?_eq_some hs) pattern hpattern)
    exact ⟨site, p, values, p', hreach, hcalls, hsees.position_eq.trans hplace,
      hcalled _ _ _ _ _ hreach hcalls⟩

end Parser

end GrammarEngine
