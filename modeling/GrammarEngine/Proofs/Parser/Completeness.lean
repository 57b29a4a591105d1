import GrammarEngine.Proofs.Parser.Progress
import GrammarEngine.Proofs.Parser.Remainder
import GrammarEngine.Proofs.Parser.Soundness

/-!
# The parser is complete for conflict-free grammars

The parser looks one token ahead, shifts whenever it can, and never goes back. Where no pattern may
end on a token that its state could also shift, looking ahead is enough: the parser follows whatever
derivation there is of its input, and returns the value of that derivation.

The proof goes along the derivation. Between two rounds the stack stands for what is left of it, so
the next token tells which of its steps is due: the pattern goes on, its rule starts over, or it is
complete. In the first two cases the token is on a way of the grammar and the state has exactly one
transition on it, the one of the derivation. In the last one the token follows the rule, so the
state has no transition, and the pattern is completed with the values of the derivation. Each round
reads a token, or takes a frame off the stack.

Main results:

* `round_of_stands` — a round does the step of the derivation that is due.
* `parse_complete` — the parse of tokens with a derivation returns its value.
-/

namespace GrammarEngine

namespace Parser

open Grammar

-- ---------------------------------------------------------------------------
-- The queue of tokens
-- ---------------------------------------------------------------------------

/-- The tokens that a queue will deliver, with end tokens behind them. -/
def Upcoming (leaves : List Token) (q : TokenQueue) : Prop :=
  ∃ ends, (∀ e ∈ ends, e.isEnd = true) ∧ q.pending.toList ++ q.left = leaves ++ ends

/-- A token was read ahead: the first of the tokens, or an end token where there is none left. -/
inductive Ahead (leaves : List Token) (token : Token) (q : TokenQueue) : Prop
  | token {rest : List Token} (hleaves : leaves = token :: rest) (h : Upcoming rest q)
  | nothing (hleaves : leaves = []) (hend : token.isEnd = true) (h : Upcoming [] q)

/-- A queue delivers the first of its tokens, and has nothing pending then. -/
theorem Upcoming.next {leaves : List Token} {q : TokenQueue} (h : Upcoming leaves q) :
    ∃ token q', TokenQueue.next.Returns q token q' ∧ q'.pending = none ∧ Ahead leaves token q' := by
  obtain ⟨ends, hends, hsplit⟩ := h
  have hahead : ∀ {token : Token} {rest : List Token} {q' : TokenQueue},
      token :: rest = leaves ++ ends →
      q'.pending.toList ++ q'.left = rest → Ahead leaves token q' := by
    intro token rest q' heq hrest
    rcases List.append_eq_cons_iff.mp heq.symm with ⟨rfl, rfl⟩ | ⟨leaves', rfl, rfl⟩
    · exact .nothing rfl (hends _ (List.mem_cons_self ..))
        ⟨rest, fun e he => hends e (List.mem_cons_of_mem _ he), hrest⟩
    · exact .token rfl ⟨ends, hends, hrest⟩
  cases hpending : q.pending with
  | some token =>
    rw [hpending] at hsplit
    refine ⟨token, { q with pending := none }, ?_, rfl, hahead hsplit rfl⟩
    refine Run.returns_bind.mpr ⟨q, q, Run.returns_get.mpr ⟨rfl, rfl⟩, ?_⟩
    rw [hpending]
    exact Run.returns_bind.mpr ⟨(), _, Run.returns_set.mpr rfl, Run.returns_pure.mpr ⟨rfl, rfl⟩⟩
  | none =>
    rw [hpending] at hsplit
    cases hleft : q.left with
    | cons token rest =>
      rw [hleft] at hsplit
      refine ⟨token, { q with left := rest, taken := q.taken + 1 }, ?_, hpending, hahead hsplit ?_⟩
      · refine Run.returns_bind.mpr ⟨q, q, Run.returns_get.mpr ⟨rfl, rfl⟩, ?_⟩
        rw [hpending, hleft]
        exact Run.returns_bind.mpr ⟨(), _, Run.returns_set.mpr rfl, Run.returns_pure.mpr ⟨rfl, rfl⟩⟩
      · show q.pending.toList ++ rest = rest
        rw [hpending]
        rfl
    | nil =>
      rw [hleft] at hsplit
      have hnil := (List.append_eq_nil_iff.mp hsplit.symm).1
      refine ⟨_, q, ⟨[], TokenQueue.next_nil hpending hleft⟩, hpending,
        .nothing hnil (Token.isEnd_endOfInput _) ?_⟩
      exact ⟨[], List.forall_mem_nil _, by rw [hpending, hleft]; rfl⟩

/-- A token that was read ahead is given back. -/
theorem Ahead.giveBack {leaves : List Token} {token : Token} {q : TokenQueue}
    (h : Ahead leaves token q) (hpending : q.pending = none) :
    ∃ q', (TokenQueue.pushBack token).Returns q () q' ∧ Upcoming leaves q' := by
  refine ⟨{ q with pending := some token }, ?_, ?_⟩
  · refine Run.returns_bind.mpr ⟨q, q, Run.returns_get.mpr ⟨rfl, rfl⟩, ?_⟩
    rw [hpending]
    exact Run.returns_set.mpr rfl
  · cases h with
    | token hleaves h =>
      obtain ⟨ends, hends, hsplit⟩ := h
      rw [hpending] at hsplit
      exact ⟨ends, hends, by rw [hleaves]; exact congrArg (token :: ·) hsplit⟩
    | nothing hleaves hend h =>
      obtain ⟨ends, hends, hsplit⟩ := h
      rw [hpending] at hsplit
      exact ⟨token :: ends, List.forall_mem_cons.mpr ⟨hend, hends⟩, by
        rw [hleaves]; exact congrArg (token :: ·) hsplit⟩

-- ---------------------------------------------------------------------------
-- The parser between two rounds
-- ---------------------------------------------------------------------------

section Machine

variable {g : Grammar (Action TokenQueue)} {kinds : List String} {table : Table}
  {start : Rule (Action TokenQueue)} {p p' : Parser TokenQueue} {frames : List (Frame TokenQueue)}
  {leaves : List Token}

/-- A parser in the middle of a parse, with a stack and the tokens it is yet to read. -/
structure Poised (g : Grammar (Action TokenQueue)) (kinds : List String) (table : Table)
    (frames : List (Frame TokenQueue)) (leaves : List Token) (p : Parser TokenQueue) : Prop where
  grammar_eq : p.grammar = g
  kinds_eq : p.keywordKinds = kinds
  table_eq : p.table = table
  blocked_eq : p.blocked = []
  stack_eq : p.stack = some frames
  source : ∃ q, p.source = some q ∧ Upcoming leaves q
  /-- The tokens are neither end tokens nor keywords. -/
  input : ∀ t ∈ leaves, t.isEnd = false ∧ g.Unspelled kinds t

namespace Poised

theorem setStack (h : Poised g kinds table frames leaves p) (frames' : List (Frame TokenQueue)) :
    Poised g kinds table frames' leaves { p with stack := some frames' } :=
  ⟨h.grammar_eq, h.kinds_eq, h.table_eq, h.blocked_eq, rfl, h.source, h.input⟩

theorem setSource {leaves' : List Token} {q : TokenQueue} (h : Poised g kinds table frames leaves p)
    (hq : Upcoming leaves' q) (hinput : leaves' ⊆ leaves) :
    Poised g kinds table frames leaves' { p with source := some q } :=
  ⟨h.grammar_eq, h.kinds_eq, h.table_eq, h.blocked_eq, h.stack_eq, ⟨q, rfl, hq⟩,
    fun t ht => h.input t (hinput ht)⟩

/-- The parser looks at the next token: it is read, and may be given back. -/
theorem look (h : Poised g kinds table frames leaves p) : ∃ token p₁,
    (∀ rounds, (nextToken rounds).Returns p token p₁) ∧ p₁.keywordKinds = kinds ∧
      (∃ p₂, (giveBack (some token)).Returns p₁ () p₂ ∧ Poised g kinds table frames leaves p₂) ∧
      ((∃ rest, leaves = token :: rest ∧ Poised g kinds table frames rest p₁) ∨
        (leaves = [] ∧ token.isEnd = true)) := by
  obtain ⟨q, hq, hupcoming⟩ := h.source
  obtain ⟨token, q₁, hnext, hpending, hahead⟩ := hupcoming.next
  obtain ⟨q₂, hback, hupcoming₂⟩ := hahead.giveBack hpending
  refine ⟨token, _, fun rounds => nextToken_of_source hq hnext h.blocked_eq, h.kinds_eq,
    ⟨_, giveBack_of_source rfl hback, h.setSource hupcoming₂ (List.Subset.refl _)⟩, ?_⟩
  cases hahead with
  | token hleaves hrest =>
    subst hleaves
    exact .inl ⟨_, rfl, h.setSource hrest (List.subset_cons_self ..)⟩
  | nothing hleaves hend _ => exact .inr ⟨hleaves, hend⟩

/-- The parser reads the next token of the derivation. -/
theorem read {token : Token} (h : Poised g kinds table frames (token :: leaves) p) :
    ∃ p₁, (∀ rounds, (nextToken rounds).Returns p token p₁) ∧
      Poised g kinds table frames leaves p₁ ∧ ∃ p₂, (giveBack (some token)).Returns p₁ () p₂ ∧
        Poised g kinds table frames (token :: leaves) p₂ := by
  obtain ⟨token', p₁, hnext, -, hback, ⟨rest, hleaves, hread⟩ | ⟨hnil, -⟩⟩ := h.look
  · obtain ⟨rfl, rfl⟩ := List.cons.inj hleaves
    exact ⟨p₁, hnext, hread, hback⟩
  · cases hnil

end Poised

-- ---------------------------------------------------------------------------
-- Shifting
-- ---------------------------------------------------------------------------

/-- The states of a grammar without deprecated and removed patterns can be entered. -/
theorem admits_of_place
    (hsupport : ∀ r ∈ g.rules, ∀ q ∈ r.patterns, q.support ≠ .deprecated ∧ q.support ≠ .removed)
    (hp : p.grammar = g) {k : Key} (h : g.Place k) : p.Admits k := by
  intro pattern hpattern
  cases h with
  | entry =>
    obtain ⟨_, -, hnone⟩ := Option.bind_eq_some_iff.mp hpattern
    cases hnone
  | inside hr hq _ =>
    rw [patternOf?_of_mem hp hr hq, Option.some.injEq] at hpattern
    subst hpattern
    exact hsupport _ hr _ (List.mem_of_getElem? hq)

/-- A token is shifted along a way of the grammar. -/
theorem shift_of_way
    (hsupport : ∀ r ∈ g.rules, ∀ q ∈ r.patterns, q.support ≠ .deprecated ∧ q.support ≠ .removed)
    (hp : p.grammar = g) {site : Site} {t : Transition} {token : Token} {top : Frame TokenQueue}
    {rest : List (Frame TokenQueue)} (hplace : ∀ k ∈ t.skipped ++ [t.target], g.Place k)
    (hstack : p.stack = some frames)
    (h : Enters p site token (site.state.key.pattern.isSome && !t.loopBack)
      (t.skipped ++ [t.target]) frames (top :: rest)) :
    (shift site t token).Returns p top.site
      { p with
        stack := some (top.insert t.target.index token.value token.position false :: rest) } :=
  shift_of_enters (fun k hk => admits_of_place hsupport hp (hplace k hk)) hstack h.follow?_last h

-- ---------------------------------------------------------------------------
-- Completing patterns
-- ---------------------------------------------------------------------------

/-- A pattern that is filled to its end is completed with the values of the derivation. -/
theorem finish_of_seat (htable : TableOf g table)
    {f parent : Frame TokenQueue} {rest : List (Frame TokenQueue)} {r : Rule (Action TokenQueue)}
    {pattern index : Nat} {q : Pattern (Action TokenQueue)} {before after : List Value} {u : Value}
    (hseat : Seat g table f r pattern index q)
    (hfilled : Filled g (q.tokens.take (index + 1)) f.values before)
    (hafter : Slots g kinds (q.tokens.drop (index + 1)) [] after)
    (hv : Evaluates q.action (before ++ after) u)
    {token : Option Token} {p₁ : Parser TokenQueue} (hback : (giveBack token).Returns p () p₁)
    (hpoised : Poised g kinds table (f :: parent :: rest) leaves p₁) :
    ∃ p', (∀ rounds, (finish rounds token).Returns p false p') ∧
      Poised g kinds table (parent.insert parent.key.index u f.first r.repeatable ::
        rest) leaves p' := by
  have hvalues : completed p₁.grammar f.site.state.tokens
      (padded .nothing f.site.state.tokens.length f.values) = .ok (before ++ after) := by
    have hall := (hfilled.primed.pass hafter).filled
    rw [List.take_append_drop] at hall
    rw [hpoised.grammar_eq, hseat.tokens_eq htable]
    exact hall.completed
  rw [← hseat.action_eq] at hv
  obtain ⟨values, positions, reducing, hcall⟩ := callAction_of_evaluates hv
    (padded none f.site.state.tokens.length f.positions) { p₁ with stack := some (parent :: rest) }
  have hstack : p.stack = some (f :: parent :: rest) := by
    rw [← giveBack_stack hback, hpoised.stack_eq]
  have hpattern : f.key.pattern.isSome = true := by
    rw [hseat.key_eq]
    rfl
  have hreduce :=
    reduce_of_action (p := { p₁ with stack := some (parent :: rest) }) hpattern hvalues hcall rfl
  rw [hseat.key_eq, repeats_of_mem (by exact hpoised.grammar_eq) hseat.mem_rules] at hreduce
  exact ⟨_, fun rounds => finish_of_frame hback hstack hreduce, hpoised.grammar_eq,
    hpoised.kinds_eq, hpoised.table_eq, hpoised.blocked_eq, rfl, hpoised.source, hpoised.input⟩

-- ---------------------------------------------------------------------------
-- Rounds
-- ---------------------------------------------------------------------------

/-- What a round leads to: a stack that stands for what is left of the derivation. -/
def LeadsTo (g : Grammar (Action TokenQueue)) (kinds : List String) (table : Table)
    (start : Rule (Action TokenQueue))
    (site : Site) (p : Parser TokenQueue) (leaves : List Token) (w : Value) : Prop :=
  ∃ f below p', (∀ rounds, (round rounds site).Returns p (.inl f.site) p') ∧
    Stands g kinds table start (f :: below) leaves w ∧ Poised g kinds table (f :: below) leaves p'

/-- Where no transition is on the next token, the round completes the pattern. -/
theorem round_of_none (site : Site)
    (hnone : ∀ token, leaves.head? = some token ∨ leaves = [] ∧ token.isEnd = true →
      site.state.transition? kinds token = none)
    (hpoised : Poised g kinds table frames leaves p) : ∃ token p₁ p₂,
      (giveBack token).Returns p₁ () p₂ ∧ Poised g kinds table frames leaves p₂ ∧
      ∀ rounds next p', (settle rounds site token).Returns p₁ next p' →
        (round rounds site).Returns p next p' := by
  by_cases hempty : site.state.transitions = []
  · exact ⟨none, p, p, Run.returns_pure.mpr ⟨rfl, rfl⟩, hpoised,
      fun rounds next p' h => round_of_empty hempty h⟩
  · obtain ⟨token, p₁, hnext, hkinds, ⟨p₂, hback, hpoised₂⟩, hahead⟩ := hpoised.look
    refine ⟨some token, p₁, p₂, hback, hpoised₂,
      fun rounds next p' h => round_of_settle hempty (hnext rounds) ?_ h⟩
    rw [hkinds]
    refine hnone token ?_
    rcases hahead with ⟨rest, rfl, -⟩ | hend
    · exact .inl rfl
    · exact .inr hend

/-- The frame of the start rule is complete where the tokens are all read. -/
theorem finish_of_read {root : Frame TokenQueue} (hpoised : Poised g kinds table [root] [] p) :
    ∃ p', (∀ rounds, (finish rounds none).Returns p true p') ∧ p'.stack = some [root] ∧
      p'.grammar = g := by
  obtain ⟨token, p₁, hnext, -, -, ⟨_, hnil, -⟩ | ⟨-, hend⟩⟩ := (hpoised.setStack []).look
  · cases hnil
  · refine ⟨_, fun rounds => finish_of_root hpoised.stack_eq hend (hnext rounds), rfl, ?_⟩
    obtain ⟨s, s', -, -, rfl⟩ := nextToken_returns (hnext 0)
    exact hpoised.grammar_eq

variable (htable : TableOf g table) (hplain : g.Plain)
  (hsupport : ∀ r ∈ g.rules, ∀ q ∈ r.patterns, q.support ≠ .deprecated ∧ q.support ≠ .removed)

include htable hplain hsupport

/-- At the entry of the start rule the first token of an instance is shifted. -/
theorem round_entry {root : Frame TokenQueue} {token : Token} {front rest : List Token}
    {v w : Value} (hstart : start ∈ g.rules) (hsite : Sits table root.site)
    (hkey : root.key = ⟨start.id, none, 0⟩)
    (hawaits : Awaits g kinds table start [root] start v rest w)
    (hbegins : Begins g kinds start token front v)
    (hpoised : Poised g kinds table [root] (token :: (front ++ rest)) p) :
    LeadsTo g kinds table start root.site p (front ++ rest) w := by
  obtain ⟨hend, hspelled⟩ := hpoised.input token (List.mem_cons_self ..)
  obtain ⟨p₁, hnext, hread, -⟩ := hpoised.read
  obtain ⟨pattern, chain, target, top, frames', hway, hpushes, hstands⟩ :=
    hawaits.pushes htable hread.grammar_eq hsite.table_eq hplain hspelled hend hstart hbegins
  have hkey' : root.site.state.key = ⟨start.id, none, 0⟩ := hkey
  have hpath : g.Path root.site.state.key ⟨token.terminal, target, chain, false⟩ := by
    rw [hkey']
    exact .entry hstart hway
  have ht := htable.transition?_of_path hplain hspelled hsite.mem hend hpath rfl
  have hmoves : (root.site.state.key.pattern.isSome && !false) = false := by
    rw [hkey']
    rfl
  have hshift :=
    shift_of_way hsupport hread.grammar_eq (t := ⟨token.terminal, target, chain, false⟩)
      (fun k hk => hway.place hstart hk) hread.stack_eq (by rw [hmoves]; exact .fresh hpushes)
  refine ⟨_, frames', _, fun rounds => ?_, hstands, hread.setStack _⟩
  exact round_of_shift (List.ne_nil_of_mem ((htable.path _ hsite.mem _).mpr hpath)) (hnext rounds)
    (by rw [hread.kinds_eq]; exact ht) rfl hshift

section Seated

variable {f : Frame TokenQueue} {below : List (Frame TokenQueue)} {r : Rule (Action TokenQueue)}
  {pattern index : Nat} {q : Pattern (Action TokenQueue)} {before after : List Value}
  {token : Token} {front rest : List Token} {u v w : Value}
  (hseat : Seat g table f r pattern index q)
  (hfilled : Filled g (q.tokens.take (index + 1)) f.values before)

include hseat hfilled

/-- Where the pattern goes on, the token is shifted. -/
theorem round_onward {n : Nat}
    (honset : Onset g kinds token (q.tokens.drop (index + 1)) n front after)
    (hv : Evaluates q.action (before ++ after) u)
    (hbelow : Awaits g kinds table start below r u rest w)
    (hpoised : Poised g kinds table (f :: below) (token :: (front ++ rest)) p) :
    LeadsTo g kinds table start f.site p (front ++ rest) w := by
  obtain ⟨hend, hspelled⟩ := hpoised.input token (List.mem_cons_self ..)
  obtain ⟨p₁, hnext, hread, -⟩ := hpoised.read
  obtain ⟨chain, target, top, frames', hway, henters, hstands⟩ := enters_of_onset htable
    hread.grammar_eq hseat.sits.table_eq hplain hspelled hend hseat hfilled honset hv hbelow
  have hkey : f.site.state.key = ⟨r.id, some pattern, index⟩ := hseat.key_eq
  have hpath : g.Path f.site.state.key ⟨token.terminal, target, chain, false⟩ := by
    rw [hkey]
    exact .onward hseat.mem_rules hway
  have ht := htable.transition?_of_path hplain hspelled hseat.sits.mem hend hpath rfl
  have hmoves : (f.site.state.key.pattern.isSome && !false) = true := by
    rw [hkey]
    rfl
  have hshift :=
    shift_of_way hsupport hread.grammar_eq (t := ⟨token.terminal, target, chain, false⟩)
      (fun k hk => hway.place hseat.mem_rules hk) hread.stack_eq (by rw [hmoves]; exact henters)
  refine ⟨_, frames', _, fun rounds => ?_, hstands, hread.setStack _⟩
  exact round_of_shift (List.ne_nil_of_mem ((htable.path _ hseat.sits.mem _).mpr hpath))
    (hnext rounds) (by rw [hread.kinds_eq]; exact ht) rfl hshift

/-- Where the pattern is filled and its rule starts over, it is completed, and the token is shifted
from its state. -/
theorem round_again {parent : Frame TokenQueue} {others : List (Frame TokenQueue)}
    (hafter : Slots g kinds (q.tokens.drop (index + 1)) [] after)
    (hv : Evaluates q.action (before ++ after) u)
    (hrepeat : r.repeatable = true) (hbegins : Begins g kinds r token front v)
    (hawaits : Awaits g kinds table start
      (parent.insert parent.key.index u f.first r.repeatable :: others) r v rest w)
    (hpoised : Poised g kinds table (f :: parent :: others) (token :: (front ++ rest)) p) :
    LeadsTo g kinds table start f.site p (front ++ rest) w := by
  obtain ⟨hend, hspelled⟩ := hpoised.input token (List.mem_cons_self ..)
  obtain ⟨p₁, hnext, hread, p₂, hback, hpoised₂⟩ := hpoised.read
  obtain ⟨p₃, hfinish, hpoised₃⟩ := finish_of_seat htable hseat hfilled hafter hv hback hpoised₂
  obtain ⟨p₄, hnext', hread', -⟩ := hpoised₃.read
  obtain ⟨other, chain, target, top, frames', hway, hpushes, hstands⟩ := hawaits.pushes htable
    hread'.grammar_eq hseat.sits.table_eq hplain hspelled hend hseat.mem_rules hbegins
  have hkey : f.site.state.key = ⟨r.id, some pattern, index⟩ := hseat.key_eq
  have hpath : g.Path f.site.state.key ⟨token.terminal, target, chain, true⟩ := by
    rw [hkey]
    exact .again hseat.mem_rules hseat.pattern_eq hseat.index_lt hrepeat hafter.of_empty.1 hway
  have ht := htable.transition?_of_path hplain hspelled hseat.sits.mem hend hpath rfl
  have hmoves : (f.site.state.key.pattern.isSome && !true) = false := Bool.and_false _
  have hshift := shift_of_way hsupport hread'.grammar_eq
    (t := ⟨token.terminal, target, chain, true⟩) (fun k hk => hway.place hseat.mem_rules hk)
      hread'.stack_eq (by rw [hmoves]; exact .fresh hpushes)
  refine ⟨_, frames', _, fun rounds => ?_, hstands, hread'.setStack _⟩
  exact round_of_loopBack (List.ne_nil_of_mem ((htable.path _ hseat.sits.mem _).mpr hpath))
    (hnext rounds) (by rw [hread.kinds_eq]; exact ht) rfl (hfinish rounds)
      (renewed_of_sits hpoised₃.table_eq hseat.sits)
    (hnext' rounds) (by rw [hread'.kinds_eq]; exact ht) hshift

end Seated

/--
**One round.** A stack that stands for what is left of a derivation reads the next token and stands
for the rest; or it loses its innermost frame, whose pattern is complete; or nothing was left, and
the parse ends with the value of the derivation.
-/
theorem round_of_stands (hfree : table.ConflictFree)
    {f : Frame TokenQueue} {below : List (Frame TokenQueue)} {w : Value}
    (h : Stands g kinds table start (f :: below) leaves w)
    (hpoised : Poised g kinds table (f :: below) leaves p) :
    (∃ leaves', leaves'.length < leaves.length ∧ LeadsTo g kinds table start f.site p leaves' w) ∨
    (∃ f' below' p',
      below'.length < below.length ∧ (∀ rounds, (round rounds f.site).Returns p (.inl f'.site) p') ∧
      Stands g kinds table start (f' :: below') leaves w ∧
      Poised g kinds table (f' :: below') leaves p') ∨
    ∃ root p', (∀ rounds, (round rounds f.site).Returns p (.inr ()) p') ∧ p'.stack = some [root] ∧
      root.values = [w] := by
  obtain ⟨parent, others, rfl⟩ := List.exists_cons_of_ne_nil h.below_ne_nil
  cases h with
  | @intro _ _ r pattern index q before after u _ inside rest hseat hfilled hafter hv hbelow =>
  cases inside with
  | cons token front =>
    -- the pattern goes on
    obtain ⟨n, honset⟩ := hafter.onset rfl
    exact .inl ⟨front ++ rest,
      by simp, round_onward htable hplain hsupport hseat hfilled honset hv hbelow hpoised⟩
  | nil =>
    rw [List.nil_append] at hpoised ⊢
    have hkey : f.site.state.key = ⟨r.id, some pattern, index⟩ := hseat.key_eq
    have hreducible := hseat.reducible_of_empty htable hafter
    rcases hbelow.insert f.first
      with ⟨hrepeat, token, front, rear, v, rfl, hbegins, hawaits⟩ | ⟨rfl, rfl, hvalues⟩ | hstands
    · -- its rule starts over
      exact .inl ⟨front ++ rear, by simp,
        round_again htable hplain hsupport hseat hfilled hafter hv hrepeat hbegins hawaits hpoised⟩
    · -- the start rule is complete, and nothing is left
      obtain ⟨token, p₁, p₂, hback, hpoised₂, hround⟩ :=
        round_of_none f.site (fun token htoken => by
        rcases htoken with htoken | ⟨-, hend⟩
        · cases htoken
        · exact htable.transition?_of_isEnd hplain hseat.sits.mem hend) hpoised
      obtain ⟨p₃, hfinish, hpoised₃⟩ := finish_of_seat htable hseat hfilled hafter hv hback hpoised₂
      obtain ⟨p₄, hroot, hstack, -⟩ := finish_of_read hpoised₃
      refine .inr (.inr ⟨_, p₄, fun rounds => hround rounds _ _ ?_, hstack, hvalues⟩)
      exact settle_of_root hreducible (hfinish rounds) hpoised₃.stack_eq (hroot rounds)
    · -- the element of the frame below is filled; the next token may follow it, so it has
      -- no transition here
      obtain ⟨second, others', rfl⟩ := List.exists_cons_of_ne_nil hstands.below_ne_nil
      obtain ⟨token, p₁, p₂, hback, hpoised₂, hround⟩ :=
        round_of_none f.site (fun token htoken => by
        rcases htoken with htoken | ⟨-, hend⟩
        · obtain ⟨rest', rfl⟩ := List.head?_eq_some_iff.mp htoken
          obtain ⟨hend, hspelled⟩ := hpoised.input token (List.mem_cons_self ..)
          refine htable.transition?_of_follow hplain hfree hspelled hseat.sits.mem hend
            (by rw [hkey]; rfl) hreducible ?_
          rw [hkey]
          exact hstands.follow htable hplain hspelled hend hpoised.grammar_eq
            (hbelow.refers htable (List.cons_ne_nil _ _))
        · exact htable.transition?_of_isEnd hplain hseat.sits.mem hend) hpoised
      obtain ⟨p₃, hfinish, hpoised₃⟩ := finish_of_seat htable hseat hfilled hafter hv hback hpoised₂
      refine .inr (.inl ⟨_, second :: others', p₃,
        by simp, fun rounds => hround rounds _ _ ?_, hstands, hpoised₃⟩)
      exact settle_of_finish hreducible (hfinish rounds) hpoised₃.stack_eq

/-- A parse whose stack stands for what is left of a derivation concludes with the value of
the derivation. -/
theorem concludes_of_stands (hfree : table.ConflictFree) {p : Parser TokenQueue}
    {f : Frame TokenQueue} {below : List (Frame TokenQueue)} {leaves : List Token} {w : Value}
    (h : Stands g kinds table start (f :: below) leaves w)
    (hpoised : Poised g kinds table (f :: below) leaves p) : Concludes f.site p w := by
  rcases round_of_stands htable hplain hsupport hfree h hpoised with
    ⟨leaves', hless, f', below', p', hround, hstands, hpoised'⟩
      | ⟨f', below', p', hless, hround, hstands, hpoised'⟩ | ⟨root, p', hround, hstack, hvalues⟩
  · exact .of_round ⟨0, fun rounds _ => hround rounds⟩ (concludes_of_stands hfree hstands hpoised')
  · exact .of_round ⟨0, fun rounds _ => hround rounds⟩ (concludes_of_stands hfree hstands hpoised')
  · exact .of_last ⟨0, fun rounds _ => hround rounds⟩ hstack (by rw [hvalues]; rfl)
termination_by (leaves.length, below.length)

omit hsupport in
/-- At the entry of a start rule that can match nothing the parse is over if there is no token. -/
theorem round_of_nothing {root : Frame TokenQueue}
    (hstart : start ∈ g.rules) (hsite : Sits table root.site)
    (hkey : root.key = ⟨start.id, none, 0⟩) (hvanishing : g.Vanishing start)
    (hpoised : Poised g kinds table [root] [] p) :
    ∃ p', (∀ rounds, (round rounds root.site).Returns p (.inr ()) p') ∧ p'.stack = some [root] ∧
      p'.grammar = g := by
  have hkey' : root.site.state.key = ⟨start.id, none, 0⟩ := hkey
  have hreducible : root.site.state.reducible = true := by
    rw [htable.reducible _ hsite.mem, hkey', ending_entry_iff hstart]
    exact hvanishing
  obtain ⟨token, p₁, p₂, hback, hpoised₂, hround⟩ := round_of_none root.site (fun token htoken => by
    rcases htoken with htoken | ⟨-, hend⟩
    · cases htoken
    · exact htable.transition?_of_isEnd hplain hsite.mem hend) hpoised
  obtain ⟨p₃, hfinish, hleft⟩ := finish_of_read hpoised₂
  exact ⟨p₃, fun rounds => hround rounds _ _
    (settle_of_done hreducible (finish_of_giveBack hback (hfinish rounds))), hleft⟩

end Machine

/--
**Completeness.** Let the tables of a grammar be made, and be free of conflicts. A row of tokens,
none of them a keyword, that has a derivation from a rule is parsed, in enough rounds, and the parse
returns the value of the derivation. The rule may be a repeatable one, and one that can match
nothing if there is no token.
-/
theorem parse_complete {p p₁ : Parser TokenQueue} {q : TokenQueue} {rule : String} {v : Value}
    (hplain : p.grammar.Plain)
    (hsupport : ∀ r ∈ p.grammar.rules, ∀ q ∈ r.patterns,
      q.support ≠ .deprecated ∧ q.support ≠ .removed)
    (htables : updateTable.Returns p () p₁) (hfree : p₁.table.ConflictFree)
    (hblocked : p.blocked = []) (hpending : q.pending = none)
    (hinput : ∀ t ∈ q.left, t.isEnd = false ∧ p.grammar.Unspelled p.keywordKinds t)
    (h : p.grammar.Slot p.keywordKinds ⟨.reference, rule⟩ q.left v) :
    ∃ n, ∀ rounds, n ≤ rounds →
      ∃ p', (updateTable >>= fun _ => parse rounds rule q).Returns p v p' := by
  obtain ⟨-, htable, ⟨memo, stack, hp₁⟩, -⟩ := updateTable_returns htables
  suffices hparse : ∃ n, ∀ rounds, n ≤ rounds → ∃ p', (parse rounds rule q).Returns p₁ v p' by
    obtain ⟨n, hn⟩ := hparse
    refine ⟨n, fun rounds hrounds => ?_⟩
    obtain ⟨p', hreturns⟩ := hn rounds hrounds
    exact ⟨p', Run.returns_bind.mpr ⟨(), p₁, htables, hreturns⟩⟩
  obtain ⟨r, hfind, hcollects⟩ := h.collects rfl
  have hr := mem_of_find?_eq_some hfind
  have hprepare : (prepare rule).Returns p₁ r p₁ := by
    refine Run.returns_bind.mpr ⟨p₁, p₁, Run.returns_get.mpr ⟨rfl, rfl⟩, ?_⟩
    rw [hp₁]
    simp only [hfind]
    rw [if_neg Bool.false_ne_true]
    exact Run.returns_pure.mpr ⟨rfl, rfl⟩
  obtain ⟨state, hstate⟩ := htable.exists_find?_iff.mpr (.entry hr)
  have hkey := Table.key_of_find?_eq_some hstate
  have hsite : Sits p₁.table ⟨p₁.table, state⟩ := ⟨rfl, by rw [hkey]; exact hstate⟩
  have hroot : ({ site := ⟨p₁.table, state⟩, action := none } : Frame TokenQueue).key =
      ⟨r.id, none, 0⟩ := hkey
  -- at first the queue holds all of the input, and nothing has been read
  have hpoised : Poised p.grammar p.keywordKinds p₁.table
      [{ site := ⟨p₁.table, state⟩, action := none }] q.left
      { p₁ with
        source := some q, stack := some [{ site := ⟨p₁.table, state⟩, action := none }] } := by
    refine ⟨by rw [hp₁], by rw [hp₁], rfl, by rw [hp₁]; exact hblocked, rfl, ⟨q, rfl, [],
      List.forall_mem_nil _, ?_⟩, hinput⟩
    rw [hpending, List.append_nil]
    rfl
  rcases hcollects with ⟨hnil, hvanishing, rfl⟩ | ⟨token, front, rest, w, hleaves, hbegins, hmore⟩
  · rw [hnil] at hpoised
    obtain ⟨p', hround, hstack, hgrammar⟩ :=
      round_of_nothing htable hplain hr hsite hroot hvanishing hpoised
    rw [← repeats_of_mem hgrammar hr r.repeatable]
    refine ⟨1, fun rounds hrounds => ⟨p', parse_of_iterate hprepare hstate ?_ hstack⟩⟩
    obtain ⟨k, rfl⟩ : ∃ k, rounds = k + 1 := ⟨rounds - 1, by omega⟩
    rw [Run.iterate_succ]
    exact Run.returns_bind.mpr ⟨.inr (), p', hround _, Run.returns_pure.mpr ⟨rfl, rfl⟩⟩
  · rw [hleaves] at hpoised
    have hawaits : Awaits p.grammar p.keywordKinds p₁.table r
        [{ site := ⟨p₁.table, state⟩, action := none }] r w rest v :=
      .root hsite hroot (.fresh Filled.nil.primed) hmore
    obtain ⟨f, below, p₂, hround, hstands, hpoised₂⟩ :=
      round_entry htable hplain hsupport hr hsite hroot hawaits hbegins hpoised
    refine parse_of_concludes hprepare hstate (.of_round ⟨0, fun rounds _ => hround rounds⟩ ?_)
    exact concludes_of_stands htable hplain hsupport hfree hstands hpoised₂

/-- Lists in brackets, of words and lists. -/
private def brackets : Parser TokenQueue where
  grammar :=
    { rules :=
        [{ id := ⟨"list", 0⟩
           patterns := [.ofTokens [⟨.literal, "("⟩, ⟨.reference, "items"⟩, ⟨.literal, ")"⟩]
             (some fun values => .done (.list [values.getD 1 .nothing]))] },
          { id := ⟨"items", 1⟩
            patterns :=
              [.ofTokens [⟨.category, "ID"⟩] (some fun values => .done (values.headD .nothing)),
              .ofTokens [⟨.reference, "list"⟩] (some fun values => .done (values.headD .nothing))]
            markedOptional := true
            repeatable := true }]
      distinct := by decide }
  declared := 2
  stamped := by decide

/-- An item and an empty list in a list. -/
private def bracketed : TokenQueue := .ofTokens "list"
  [("LITERAL", .text "(", none), ("ID", .text "a", none), ("LITERAL", .text "(", none),
    ("LITERAL", .text ")", none), ("LITERAL", .text ")", none)]

private theorem conflictFree_brackets : (updateTable.run brackets).state.table.ConflictFree := by
  refine Table.conflictFree_of_family (fun name =>
    if name = "items" then [⟨.literal, ")"⟩] else
      [⟨.category, "ID"⟩, ⟨.literal, "("⟩, ⟨.literal, ")"⟩]) ?_ ?_ ?_ <;>
    decide +kernel

/-- A list with a word and an empty list in it is derived, and has them as its value. -/
private theorem slot_bracketed :
    brackets.grammar.Slot brackets.keywordKinds ⟨.reference, "list"⟩ bracketed.left
    (.list [.series [.text "a", .list [.series []]]]) := by
  have hmark : ∀ (word : String) (position : Option Position),
      brackets.grammar.Slot brackets.keywordKinds
      ⟨.literal, word⟩ [⟨"LITERAL", .text word, position⟩] (.text word) := fun word position =>
    .terminal rfl (@Descriptor.Matches.literal _ ⟨"LITERAL", .text word, position⟩ rfl rfl)
  have hlist : ∀ {leaves : List Token} {v : Value} (first last : Option Position),
      brackets.grammar.Slot brackets.keywordKinds ⟨.reference, "items"⟩ leaves v →
      brackets.grammar.Instance brackets.keywordKinds brackets.grammar.rules[0]
        (⟨"LITERAL", .text "(", first⟩ :: (leaves ++ [⟨"LITERAL", .text ")", last⟩])) (.list [v]) :=
    fun first last h => .intro (List.mem_singleton_self _)
      (.cons (hmark "(" first) (.cons h (.cons (hmark ")" last) .nil))) (List.cons_ne_nil _ _) rfl
  have hword : ∀ position, brackets.grammar.Instance brackets.keywordKinds brackets.grammar.rules[1]
      [⟨"ID", .text "a", position⟩] (.text "a") := fun position =>
    .intro (List.mem_cons_self ..)
      (.cons (.terminal rfl (@Descriptor.Matches.category _ ⟨"ID", .text "a", position⟩ rfl)) .nil)
      (List.cons_ne_nil _ _) rfl
  have hempty : brackets.grammar.Slot brackets.keywordKinds ⟨.reference, "items"⟩ [] (.series []) :=
    .missing (s := brackets.grammar.rules[1]) rfl rfl (.marked rfl)
  have hinner : ∀ first last, brackets.grammar.Instance brackets.keywordKinds
      brackets.grammar.rules[1] [⟨"LITERAL", .text "(", first⟩, ⟨"LITERAL", .text ")", last⟩]
        (.list [.series []]) := fun first last =>
    .intro (List.mem_cons_of_mem _ (List.mem_singleton_self _))
      (.cons (.one rfl rfl rfl (hlist first last hempty)) .nil) (List.cons_ne_nil _ _) rfl
  exact .one rfl rfl rfl (hlist _ _ (.many rfl rfl rfl (.more (.first (hword _)) (hinner _ _))))

/-- The parse of the list returns that value: it shifts the brackets, and completes the items where
the bracket that follows them has no transition. -/
theorem parse_complete_brackets : (updateTable.run brackets).state.table.ConflictFree ∧
    brackets.grammar.Slot brackets.keywordKinds ⟨.reference, "list"⟩ bracketed.left
      (.list [.series [.text "a", .list [.series []]]]) ∧
    ∃ n, ∀ rounds, n ≤ rounds →
      ∃ p', (updateTable >>= fun _ => parse rounds "list" bracketed).Returns brackets
      (.list [.series [.text "a", .list [.series []]]]) p' := by
  have htables : updateTable.Returns brackets () (updateTable.run brackets).state :=
    Run.returns_of_result (by decide +kernel)
  have hsupport : ∀ r ∈ brackets.grammar.rules,
      ∀ q ∈ r.patterns, q.support ≠ .deprecated ∧ q.support ≠ .removed := by
    decide
  have huses : ∀ r ∈ brackets.grammar.rules, ∀ q ∈ r.patterns, ∀ d ∈ q.tokens,
      d.kind ≠ .endOfInput ∧ d ≠ ⟨.category, Token.literalKind⟩ ∧ d ≠ ⟨.literal, "a"⟩ := by
    decide
  have hplain : brackets.grammar.Plain := by
    refine ⟨fun d ⟨r, hr, q, hq, hd⟩ => (huses r hr q hq d hd).1, fun ⟨r, hr, q, hq, hd⟩ => ?_⟩
    exact (huses r hr q hq _ hd).2.1 rfl
  have hinput : ∀ t ∈ bracketed.left,
      t.isEnd = false ∧ brackets.grammar.Unspelled brackets.keywordKinds t := by
    have htokens : ∀ t ∈ bracketed.left, t.isEnd = false ∧
        (t.kind ∈ brackets.keywordKinds → t.value = .text "a") := by decide
    intro t ht
    obtain ⟨hend, hvalue⟩ := htokens t ht
    refine ⟨hend, fun hkind word hword ⟨r, hr, q, hq, hd⟩ => ?_⟩
    rw [hvalue hkind, Value.text.injEq] at hword
    subst hword
    exact (huses r hr q hq _ hd).2.2 rfl
  exact ⟨conflictFree_brackets, slot_bracketed,
    parse_complete hplain hsupport htables conflictFree_brackets rfl rfl hinput slot_bracketed⟩

end Parser

end GrammarEngine
