import GrammarEngine.Proofs.Grammar.Wiring
import Mathlib.Data.List.Forall2
import Mathlib.Data.List.TakeWhile

/-!
# What a table holds

A grammar is compiled in two passes: first all states are made, each told whether its pattern may
end there, then each state is given its transitions. For a closed grammar the outcome is one of two.
Either some state has two different paths on the same token, and the grammar is refused for a pair
of them; or every state of the grammar is in the table, and has for transitions exactly its paths
(`TableOf`). Since paths may go round in cycles and transitions do not, this says in particular that
no grammar with a cycle that leads anywhere is ever accepted.

Main results:

* `compile_cases` — the two outcomes, with what each of them says.
* `tableOf_of_compile` — what a table that was compiled holds.
* `compile_exact` — a grammar is refused exactly if some state has two paths on the same token.
-/

namespace GrammarEngine

/-- A table that belongs to a grammar: it holds all states, each with its paths. -/
structure TableOf {α : Type} (g : Grammar α) (table : Table) : Prop where
  /-- Every state is one of the grammar. -/
  place : ∀ s ∈ table, g.Place s.key
  /-- Every state of the grammar is there. -/
  complete : ∀ k, g.Place k → ∃ s ∈ table, s.key = k
  /-- The transitions of a state are its paths. -/
  path : ∀ s ∈ table, ∀ t, t ∈ s.transitions ↔ g.Path s.key t
  /-- No two of them are on the same token. -/
  deterministic : ∀ s ∈ table, s.transitions.Pairwise fun e t => e.token ≠ t.token
  /-- A state may end its pattern if all behind it can be passed over. -/
  reducible : ∀ s ∈ table, s.reducible = true ↔ g.Ending s.key
  /-- A state knows the elements of its pattern. -/
  tokens : ∀ s ∈ table, ∀ r ∈ g.rules, ∀ pattern p, s.key.rule = r.id →
    s.key.pattern = some pattern → r.patterns[pattern]? = some p → s.tokens = p.tokens
  /-- A state knows whether its rule repeats. -/
  repeats : ∀ s ∈ table, ∀ r ∈ g.rules, s.key.rule = r.id → s.repeats = r.repeatable

namespace TableOf

variable {α : Type} {g : Grammar α} {table : Table} {s : State} {t : Transition}

/-- A path of a state is found by its terminal. -/
theorem find?_of_path (htable : TableOf g table) (hs : s ∈ table) (h : g.Path s.key t) :
    s.find? t.token = some t := by
  have ht := (htable.path s hs t).mpr h
  cases hfind : s.find? t.token with
  | none => exact absurd (List.find?_eq_none.mp hfind t ht) (by simp)
  | some t' =>
    obtain ⟨ht', htoken⟩ := State.mem_of_find?_eq_some hfind
    have hnodup : (s.transitions.map Transition.token).Nodup :=
      List.pairwise_map.mpr (htable.deterministic s hs)
    rw [List.inj_on_of_nodup_map hnodup ht' ht htoken]

/-- A state finds its paths by their terminals, and nothing else. -/
theorem find?_eq_some_iff (htable : TableOf g table) (hs : s ∈ table) {d : Descriptor} :
    s.find? d = some t ↔ g.Path s.key t ∧ t.token = d := by
  constructor
  · intro h
    obtain ⟨ht, htoken⟩ := State.mem_of_find?_eq_some h
    exact ⟨(htable.path s hs t).mp ht, htoken⟩
  · rintro ⟨hpath, rfl⟩
    exact htable.find?_of_path hs hpath

/-- The keys of the states are the states of the grammar. -/
theorem exists_find?_iff (htable : TableOf g table) {k : Key} :
    (∃ s, table.find? k = some s) ↔ g.Place k := by
  constructor
  · rintro ⟨s, hs⟩
    rw [← Table.key_of_find?_eq_some hs]
    exact htable.place s (List.mem_of_find?_eq_some hs)
  · intro hk
    obtain ⟨s, hs, hkey⟩ := htable.complete k hk
    rw [← Option.isSome_iff_exists, Table.find?, List.find?_isSome]
    exact ⟨s, hs, by simp [hkey]⟩

end TableOf

namespace Grammar

variable {α : Type}

-- ---------------------------------------------------------------------------
-- The states before wiring
-- ---------------------------------------------------------------------------

/-- How many elements at the end of a pattern can be passed over; the first element does
not count. -/
noncomputable def trailing (g : Grammar α) (p : Pattern α) : Nat :=
  (p.tokens.tail.reverse.takeWhile g.skips).length

/-- The entry state of a rule, without transitions. -/
noncomputable def blankEntry (g : Grammar α) (r : Rule α) : State :=
  ⟨⟨r.id, none, 0⟩, [], g.vanishes r, r.repeatable, []⟩

/-- The state behind an element, without transitions. -/
noncomputable def blankInside (g : Grammar α) (r : Rule α) (pattern : Nat) (p : Pattern α)
    (index : Nat) : State where
  key := ⟨r.id, some pattern, index⟩
  tokens := p.tokens
  reducible := p.tokens.length ≤ index + 1 + g.trailing p
  repeats := r.repeatable
  transitions := []

/-- The states of some patterns of a rule, numbered from an index on. -/
noncomputable def blanksFrom (g : Grammar α) (r : Rule α) (index : Nat)
    (patterns : List (Pattern α)) : List State :=
  (patterns.zipIdx index).flatMap fun (p, pattern) =>
    (List.range p.tokens.length).map (g.blankInside r pattern p)

/-- The states of some rules. -/
noncomputable def blanks (g : Grammar α) (rules : List (Rule α)) : List State :=
  rules.flatMap fun r => g.blankEntry r :: g.blanksFrom r 0 r.patterns

/-- The elements at the end that may be passed over are counted by asking about each rule. -/
theorem settles_trailingOptional {g : Grammar α} (hg : g.Closed) (pattern tokens : List Descriptor)
    (hclosed : ∀ d ∈ tokens, d.isTerminal = false → ∃ s, g.find? d.name = some s) :
    g.Settles (g.trailingOptional pattern tokens) (tokens.takeWhile g.skips).length := by
  induction tokens with
  | nil => exact settles_pure g 0
  | cons d rest ih =>
    have hrest := ih fun d' hd' => hclosed d' (List.mem_cons_of_mem _ hd')
    rw [trailingOptional]
    cases ht : d.isTerminal with
    | true =>
      rw [List.takeWhile_cons_of_neg (by simp [skips_of_isTerminal ht])]
      exact settles_pure g 0
    | false =>
      obtain ⟨s, hs⟩ := hclosed d (List.mem_cons_self ..) ht
      refine settles_bind (settles_ofExcept (referenced_of_find?_eq_some pattern hs)) ?_
      refine settles_bind (settles_isOptional hg (mem_of_find?_eq_some hs)) ?_
      rw [List.takeWhile_cons, skips_of_find? ht hs]
      cases g.vanishes s with
      | true => exact settles_bind hrest (settles_pure g _)
      | false => exact settles_pure g 0

/-- The states of a pattern are made in order, each blank. -/
theorem settles_patternStates {g : Grammar α} (hg : g.Closed) {r : Rule α} (hr : r ∈ g.rules)
    {p : Pattern α} (hp : p ∈ r.patterns) (index : Nat) :
    g.Settles (g.patternStates r index p)
      ((List.range p.tokens.length).map (g.blankInside r index p)) := by
  have htail : ∀ d ∈ p.tokens.tail.reverse, d.isTerminal = false →
      ∃ s, g.find? d.name = some s := by
    intro d hd
    exact hg r hr p hp d (List.mem_of_mem_tail (List.mem_reverse.mp hd))
  exact settles_bind (settles_trailingOptional hg p.tokens p.tokens.tail.reverse htail)
    (settles_pure g _)

/-- So are the states of all patterns of a rule. -/
theorem settles_patternsStates {g : Grammar α} (hg : g.Closed) {r : Rule α} (hr : r ∈ g.rules)
    (patterns : List (Pattern α)) (hsub : patterns ⊆ r.patterns) (index : Nat) :
    g.Settles (g.patternsStates r index patterns) (g.blanksFrom r index patterns) := by
  induction patterns generalizing index with
  | nil => exact settles_pure g []
  | cons p rest ih =>
    have hp := hsub (List.mem_cons_self ..)
    have hrest := ih (fun q hq => hsub (List.mem_cons_of_mem _ hq)) (index + 1)
    rw [blanksFrom, List.zipIdx_cons, List.flatMap_cons]
    exact settles_bind (settles_patternStates hg hr hp index)
      (settles_bind hrest (settles_pure g _))

/-- When the states of a rule are made the rule is worked out, so the memo knows it from then on. -/
theorem ruleStates_run {g : Grammar α} (hg : g.Closed) {r : Rule α} (hr : r ∈ g.rules) {memo : Memo}
    (hmemo : g.Truthful memo) :
    ∃ memo',
      (g.ruleStates r).run memo = ⟨.ok (g.blankEntry r :: g.blanksFrom r 0 r.patterns), memo', []⟩ ∧
      g.Truthful memo' ∧ (memo'.lookup r.id).isSome ∧
      ∀ id, (memo.lookup id).isSome → (memo'.lookup id).isSome := by
  obtain ⟨memo₁, hrun₁, htrue₁, hkeep₁⟩ := settles_isOptional hg hr memo hmemo
  obtain ⟨memo₂, hrun₂, htrue₂, hkeep₂⟩ :=
    settles_patternsStates hg hr r.patterns (List.Subset.refl _) 0 memo₁ htrue₁
  refine ⟨memo₂, ?_, htrue₂, hkeep₂ _ ?_, fun id hid => hkeep₂ id (hkeep₁ id hid)⟩
  · rw [ruleStates, Run.run_bind, hrun₁]
    simp only [Run.run_bind, hrun₂]
    rfl
  · rw [lookup_of_isOptional hrun₁]
    rfl

/-- **The states of all rules.** Every rule has been asked about in the end, and all answers are
true. -/
theorem statesOf_run {g : Grammar α} (hg : g.Closed) (rules : List (Rule α))
    (hsub : rules ⊆ g.rules) {memo : Memo} (hmemo : g.Truthful memo) :
    ∃ memo', (g.statesOf rules).run memo = ⟨.ok (g.blanks rules), memo', []⟩ ∧ g.Truthful memo' ∧
      (∀ r ∈ rules, (memo'.lookup r.id).isSome) ∧
      ∀ id, (memo.lookup id).isSome → (memo'.lookup id).isSome := by
  induction rules generalizing memo with
  | nil => exact ⟨memo, rfl, hmemo, by simp, fun _ hid => hid⟩
  | cons r rest ih =>
    obtain ⟨memo₁, hrun₁, htrue₁, hknows₁, hkeep₁⟩ :=
      ruleStates_run hg (hsub (List.mem_cons_self ..)) hmemo
    obtain ⟨memo₂, hrun₂, htrue₂, hknows₂, hkeep₂⟩ :=
      ih (fun s hs => hsub (List.mem_cons_of_mem _ hs)) htrue₁
    refine ⟨memo₂, ?_, htrue₂, ?_, fun id hid => hkeep₂ id (hkeep₁ id hid)⟩
    · rw [statesOf, Run.run_bind, hrun₁]
      simp only [Run.run_bind, hrun₂]
      rfl
    · intro s hs
      rcases List.mem_cons.mp hs with rfl | hs
      · exact hkeep₂ _ hknows₁
      · exact hknows₂ s hs

/-- The blank states are the entries of rules, and the places inside patterns. -/
theorem mem_blanks {g : Grammar α} {rules : List (Rule α)} {s : State} :
    s ∈ g.blanks rules ↔ ∃ r ∈ rules, s = g.blankEntry r ∨
      ∃ pattern p, r.patterns[pattern]? = some p ∧ ∃ index < p.tokens.length,
        s = g.blankInside r pattern p index := by
  rw [blanks, List.mem_flatMap]
  refine exists_congr fun r => and_congr_right fun _ => ?_
  rw [List.mem_cons, blanksFrom, List.mem_flatMap]
  refine or_congr_right ?_
  constructor
  · rintro ⟨⟨p, pattern⟩, hx, hs⟩
    obtain ⟨index, hindex, rfl⟩ := List.mem_map.mp hs
    exact ⟨pattern, p, List.mk_mem_zipIdx_iff_getElem?.mp hx, index, List.mem_range.mp hindex, rfl⟩
  · rintro ⟨pattern, p, hp, index, hindex, rfl⟩
    exact ⟨(p, pattern), List.mk_mem_zipIdx_iff_getElem?.mpr hp,
      List.mem_map.mpr ⟨index, List.mem_range.mpr hindex, rfl⟩⟩

-- ---------------------------------------------------------------------------
-- Where a pattern may end
-- ---------------------------------------------------------------------------

/-- The items at the end of a row that meet a condition reach down to an index exactly if all items
from there on meet it. -/
theorem le_add_length_takeWhile_reverse {κ : Type} {f : κ → Bool} {row : List κ} {index : Nat}
    (h : index ≤ row.length) :
    row.length ≤ index + (row.reverse.takeWhile f).length ↔ ∀ x ∈ row.drop index, f x = true := by
  have hlen : (row.drop index).reverse.length = row.length - index := by
    rw [List.length_reverse, List.length_drop]
  have hsplit : row.reverse = (row.drop index).reverse ++ (row.take index).reverse := by
    rw [← List.reverse_append, List.take_append_drop]
  rw [hsplit, List.takeWhile_append]
  split
  · next hfull =>
    have hall : (row.drop index).reverse.takeWhile f = (row.drop index).reverse :=
      (List.takeWhile_prefix f).eq_of_length hfull
    rw [List.takeWhile_eq_self_iff] at hall
    refine iff_of_true ?_ fun x hx => hall x (List.mem_reverse.mpr hx)
    rw [List.length_append, hlen]
    omega
  · next hpart =>
    have hle := (List.takeWhile_prefix (l := (row.drop index).reverse) f).length_le
    refine iff_of_false ?_ fun hall => ?_
    · rw [hlen] at hpart hle
      omega
    · refine hpart ?_
      rw [List.takeWhile_eq_self_iff.mpr fun x hx => hall x (List.mem_reverse.mp hx)]

/-- A state inside a pattern is reducible if the pattern may end there. -/
theorem reducible_blankInside {g : Grammar α} {r : Rule α} {pattern index : Nat} {p : Pattern α}
    (hr : r ∈ g.rules) (hp : r.patterns[pattern]? = some p) (hi : index < p.tokens.length) :
    (g.blankInside r pattern p index).reducible = true ↔
      g.Ending (g.blankInside r pattern p index).key := by
  have htail : index ≤ p.tokens.tail.length := by
    rw [List.length_tail]
    omega
  have hcount := le_add_length_takeWhile_reverse (f := g.skips) htail
  rw [List.length_tail, List.drop_tail] at hcount
  have hends : (g.blankInside r pattern p index).reducible = true ↔
      ∀ d ∈ p.tokens.drop (index + 1), g.Skippable d := by
    rw [blankInside, decide_eq_true_eq, trailing]
    simp only [← skips_eq_true]
    rw [← hcount]
    omega
  rw [hends]
  exact (ending_inside_iff hr hp hi).symm

/-- A state in front of a rule is reducible if the rule may match nothing. -/
theorem reducible_blankEntry {g : Grammar α} {r : Rule α} (hr : r ∈ g.rules) :
    (g.blankEntry r).reducible = true ↔ g.Ending (g.blankEntry r).key := by
  rw [blankEntry, vanishes_eq_true]
  exact (ending_entry_iff hr).symm

-- ---------------------------------------------------------------------------
-- The transitions of a state
-- ---------------------------------------------------------------------------

/-- The transitions of a state of a rule, as they are met when it is wired. -/
noncomputable def outgoing (g : Grammar α) (r : Rule α) (s : State) : List Transition :=
  match s.key.pattern with
  | none => g.waysInto false (g.positions + 1) r []
  | some pattern =>
    g.waysAlong false (g.waysInto false (g.positions + 1)) r.id pattern
        (s.tokens.drop (s.key.index + 1)) (s.key.index + 1) [] ++
      if (s.tokens.drop (s.key.index + 1)).all g.skips && r.repeatable then
        g.waysInto true (g.positions + 1) r []
      else []

section Outgoing

variable {g : Grammar α} {r : Rule α}

/-- What leads on from a place inside a pattern: what follows in the pattern, or the rule once
more. -/
theorem outgoing_blankInside (g : Grammar α) (r : Rule α) (pattern : Nat) (p : Pattern α)
    (index : Nat) :
    g.outgoing r (g.blankInside r pattern p index) =
      g.waysAlong false (g.waysInto false (g.positions + 1)) r.id pattern
          (p.tokens.drop (index + 1)) (index + 1) [] ++
        if (p.tokens.drop (index + 1)).all g.skips && r.repeatable then
          g.waysInto true (g.positions + 1) r []
        else [] := rfl

/-- Wiring a state in front of a rule adds the ways into the rule. -/
theorem wire_blankEntry (hg : g.Closed) {optional : Rule α → Bool}
    (hopt : ∀ s ∈ g.rules, optional s = g.vanishes s) (hr : r ∈ g.rules) :
    g.wire optional (g.blankEntry r) =
      (g.blankEntry r).addAll (g.outgoing r (g.blankEntry r)) := by
  rw [wire]
  simp only [blankEntry, byId?_of_mem hr, outgoing]
  exact enterRule_eq hg hopt _ r hr [] _ (chain_nil g) (by simp)

/-- Wiring a state inside a pattern adds the ways along the pattern. -/
theorem wire_blankInside (hg : g.Closed) {optional : Rule α → Bool}
    (hopt : ∀ s ∈ g.rules, optional s = g.vanishes s) (hr : r ∈ g.rules) {pattern index : Nat}
    {p : Pattern α} (hp : r.patterns[pattern]? = some p) :
    g.wire optional (g.blankInside r pattern p index) =
      (g.blankInside r pattern p index).addAll (g.outgoing r
        (g.blankInside r pattern p index)) := by
  have henter := @enterRule_eq α g optional false hg hopt (g.positions + 1)
  have halong := @along_eq α g optional false hg hopt _ _ _ henter _ _ _ hr hp _ (chain_nil g)
    (by simp) (p.tokens.drop (index + 1)) (index + 1) rfl
  rw [wire, outgoing_blankInside, State.addAll_append]
  simp only [blankInside, byId?_of_mem hr]
  rw [halong, bind_assoc]
  refine congrArg _ (funext fun state => ?_)
  rw [pure_bind]
  by_cases hends : ((p.tokens.drop (index + 1)).all g.skips && r.repeatable) = true
  · rw [if_pos hends, if_pos hends]
    exact enterRule_eq hg hopt _ r hr [] _ (chain_nil g) (by simp)
  · rw [if_neg hends, if_neg hends]
    rfl

/-- A transition found from nowhere else has the references on the way for its chain. -/
theorem found_nil_iff {loopBack : Bool} {pattern index : Nat} {t : Transition} :
    g.Found loopBack r pattern index [] t ↔
      ∃ chain target token, t = ⟨token, target, chain, loopBack⟩ ∧
        g.Way r pattern index chain target token ∧ chain.Nodup := Iff.rfl

/-- The entry state of a rule is given its paths without repetition. -/
theorem mem_outgoing_blankEntry (hg : g.Closed) (hr : r ∈ g.rules) (t : Transition) :
    t ∈ g.outgoing r (g.blankEntry r) ↔ g.Path (g.blankEntry r).key t ∧ t.skipped.Nodup := by
  have hways := @mem_waysInto α g false hg (g.positions + 1) r hr [] t (chain_nil g) (by simp)
  simp only [found_nil_iff] at hways
  have hpaths := path_entry_iff hr (t := t)
  rw [outgoing, blankEntry, hways, hpaths]
  constructor
  · rintro ⟨pattern, chain, target, token, rfl, hway, hnodup⟩
    exact ⟨⟨pattern, chain, target, token, rfl, hway⟩, hnodup⟩
  · rintro ⟨⟨pattern, chain, target, token, rfl, hway⟩, hnodup⟩
    exact ⟨pattern, chain, target, token, rfl, hway, hnodup⟩

/-- A state of a pattern is given its paths without repetition. -/
theorem mem_outgoing_blankInside (hg : g.Closed) (hr : r ∈ g.rules)
    {pattern index : Nat} {p : Pattern α}
    (hp : r.patterns[pattern]? = some p) (hi : index < p.tokens.length) (t : Transition) :
    t ∈ g.outgoing r (g.blankInside r pattern p index) ↔
      g.Path (g.blankInside r pattern p index).key t ∧ t.skipped.Nodup := by
  have hinto := @mem_waysInto α g false hg (g.positions + 1)
  have honward := mem_waysAlong hg hinto hr hp (chain_nil g) (by simp)
    (p.tokens.drop (index + 1)) (index + 1) rfl t
  have hagain := @mem_waysInto α g true hg (g.positions + 1) r hr [] t (chain_nil g) (by simp)
  simp only [found_nil_iff] at honward hagain
  have hpaths := path_inside_iff hr hp hi (t := t)
  rw [outgoing_blankInside, List.mem_append, honward]
  refine Iff.trans ?_ (and_congr_left fun _ => hpaths.symm)
  constructor
  · rintro (⟨chain, target, token, rfl, hway, hnodup⟩ | hback)
    · exact ⟨.inl ⟨chain, target, token, rfl, hway⟩, hnodup⟩
    · split at hback
      · next hends =>
        rw [Bool.and_eq_true, List.all_eq_true] at hends
        obtain ⟨other, chain, target, token, rfl, hway, hnodup⟩ := hagain.mp hback
        exact ⟨.inr ⟨hends.2, fun d hd => skips_eq_true.mp (hends.1 d hd), other, chain, target,
          token, rfl, hway⟩, hnodup⟩
      · cases hback
  · rintro ⟨⟨chain, target, token, rfl, hway⟩ |
      ⟨hrepeat, hrest, other, chain, target, token, rfl, hway⟩, hnodup⟩
    · exact .inl ⟨chain, target, token, rfl, hway, hnodup⟩
    · have hends : ((p.tokens.drop (index + 1)).all g.skips && r.repeatable) = true := by
        rw [Bool.and_eq_true, List.all_eq_true]
        exact ⟨fun d hd => skips_eq_true.mpr (hrest d hd), hrepeat⟩
      refine .inr ?_
      rw [if_pos hends]
      exact hagain.mpr ⟨other, chain, target, token, rfl, hway, hnodup⟩

/-- No way is found twice. -/
theorem nodup_outgoing (hg : g.Closed) (hr : r ∈ g.rules) {s : State}
    (hs : s = g.blankEntry r ∨ ∃ pattern p, r.patterns[pattern]? = some p ∧
      ∃ index < p.tokens.length, s = g.blankInside r pattern p index) : (g.outgoing r s).Nodup := by
  rcases hs with rfl | ⟨pattern, p, hp, index, hi, rfl⟩
  · exact nodup_waysInto hg _ r hr [] (chain_nil g) (by simp)
  · have hinto := @mem_waysInto α g false hg (g.positions + 1)
    have hn : g.positions < g.positions + 1 + 1 + ([] : List Key).length := by simp
    rw [outgoing_blankInside]
    refine List.nodup_append.mpr ⟨?_, ?_, ?_⟩
    · exact nodup_waysAlong hg hinto (nodup_waysInto hg (g.positions + 1)) hr hp (chain_nil g) hn
        (p.tokens.drop (index + 1)) (index + 1) rfl
    · split
      · exact nodup_waysInto hg _ r hr [] (chain_nil g) (by simp)
      · exact List.nodup_nil
    · -- a path on to the next element does not loop back
      rintro t ht t' ht' rfl
      obtain ⟨_, _, _, rfl, -, -⟩ := (mem_waysAlong hg hinto hr hp (chain_nil g) hn
        (p.tokens.drop (index + 1)) (index + 1) rfl t).mp ht
      split at ht'
      · obtain ⟨_, _, _, _, heq, -, -⟩ :=
          (mem_waysInto hg _ r hr [] _ (chain_nil g) (by simp)).mp ht'
        rw [Transition.mk.injEq] at heq
        exact Bool.false_ne_true heq.2.2.2
      · cases ht'

end Outgoing

-- ---------------------------------------------------------------------------
-- Compiling
-- ---------------------------------------------------------------------------

/-- Some items are turned into others one by one: either all are, or one of them is refused. -/
theorem mapM_cases {ε κ τ : Type} (f : κ → Except ε τ) (items : List κ) :
    (∃ results, items.mapM f = .ok results ∧ (∀ y ∈ results, ∃ x ∈ items, f x = .ok y) ∧
      ∀ x ∈ items, ∃ y ∈ results, f x = .ok y) ∨
    ∃ x ∈ items, ∃ e, f x = .error e ∧ items.mapM f = .error e := by
  induction items with
  | nil => exact .inl ⟨[], rfl, by simp, by simp⟩
  | cons x rest ih =>
    rw [List.mapM_cons]
    cases hx : f x with
    | error e => exact .inr ⟨x, List.mem_cons_self .., e, hx, rfl⟩
    | ok y =>
      rcases ih with ⟨results, hok, hof, hto⟩ | ⟨x', hx', e, he, herror⟩
      · refine .inl ⟨y :: results, ?_, ?_, ?_⟩
        · rw [hok]
          rfl
        · rintro y' (_ | ⟨_, hy'⟩)
          · exact ⟨x, List.mem_cons_self .., hx⟩
          · obtain ⟨x', hx', hof'⟩ := hof y' hy'
            exact ⟨x', List.mem_cons_of_mem _ hx', hof'⟩
        · rintro x' (_ | ⟨_, hx'⟩)
          · exact ⟨y, List.mem_cons_self .., hx⟩
          · obtain ⟨y', hy', hto'⟩ := hto x' hx'
            exact ⟨y', List.mem_cons_of_mem _ hy', hto'⟩
      · refine .inr ⟨x', List.mem_cons_of_mem _ hx', e, he, ?_⟩
        rw [herror]
        rfl

/-- What compiling a closed grammar comes to: its states, all wired with the answers of
`vanishes`. -/
theorem compile_result {g : Grammar α} (hg : g.Closed) :
    ∃ optional : Rule α → Bool, (∀ r ∈ g.rules, optional r = g.vanishes r) ∧
      (g.compile.run []).result = (g.blanks g.rules).mapM (g.wire optional) := by
  obtain ⟨memo, hrun, htrue, hknows, -⟩ :=
    statesOf_run hg g.rules (List.Subset.refl _) (truthful_nil g)
  refine ⟨fun r => (memo.lookup r.id).getD false, fun r hr => ?_, ?_⟩
  · obtain ⟨answer, hanswer⟩ := Option.isSome_iff_exists.mp (hknows r hr)
    simp only [hanswer, Option.getD_some]
    exact htrue r hr answer hanswer
  · rw [compile, Run.run_bind, hrun]
    simp only [Run.run_bind, Run.run_get]
    cases (g.blanks g.rules).mapM (g.wire fun r => (memo.lookup r.id).getD false) with
    | error e => rfl
    | ok table => rfl

/-- A table that is made is told of, and nothing else. -/
theorem compile_trace {g : Grammar α} (hg : g.Closed) : (g.compile.run []).trace =
    match (g.compile.run []).result with
    | .ok table => [.compiled g.rules.length table]
    | .error _ => [] := by
  obtain ⟨memo, hrun, -⟩ := statesOf_run hg g.rules (List.Subset.refl _) (truthful_nil g)
  rw [compile, Run.run_bind, hrun]
  simp only [Run.run_bind, Run.run_get]
  cases (g.blanks g.rules).mapM (g.wire fun r => (memo.lookup r.id).getD false) with
  | error e => rfl
  | ok table => rfl

/-- A state that was made for a grammar, before it is wired. -/
def IsBlank (g : Grammar α) (r : Rule α) (s : State) : Prop :=
  s = g.blankEntry r ∨ ∃ pattern p, r.patterns[pattern]? = some p ∧ ∃ index < p.tokens.length,
    s = g.blankInside r pattern p index

/-- Blank states have no transitions yet. -/
theorem IsBlank.transitions {g : Grammar α} {r : Rule α} {s : State} (h : g.IsBlank r s) :
    s.transitions = [] := by
  rcases h with rfl | ⟨_, _, _, _, _, rfl⟩ <;> rfl

/-- Wiring a blank state adds what leads on from it. -/
theorem IsBlank.wire {g : Grammar α} (hg : g.Closed) {optional : Rule α → Bool}
    (hopt : ∀ s ∈ g.rules, optional s = g.vanishes s) {r : Rule α} (hr : r ∈ g.rules) {s : State}
    (h : g.IsBlank r s) : g.wire optional s = s.addAll (g.outgoing r s) := by
  rcases h with rfl | ⟨pattern, p, hp, index, -, rfl⟩
  · exact wire_blankEntry hg hopt hr
  · exact wire_blankInside hg hopt hr hp

/-- What leads on are the paths that go through no state twice. -/
theorem IsBlank.mem_outgoing {g : Grammar α} (hg : g.Closed) {r : Rule α}
    (hr : r ∈ g.rules) {s : State} (h : g.IsBlank r s) (t : Transition) :
    t ∈ g.outgoing r s ↔ g.Path s.key t ∧ t.skipped.Nodup := by
  rcases h with rfl | ⟨pattern, p, hp, index, hi, rfl⟩
  · exact mem_outgoing_blankEntry hg hr t
  · exact mem_outgoing_blankInside hg hr hp hi t

/-- Two different paths of a state on the same token. -/
def Conflict (g : Grammar α) (k : Key) (t t' : Transition) : Prop :=
  g.Path k t ∧ g.Path k t' ∧ t ≠ t' ∧ t.token = t'.token

/-- A path that repeats a reference, from any state, leaves a conflict at the entry of some rule,
between two paths that do not. -/
theorem Path.exists_conflict {g : Grammar α} {k : Key} {t : Transition} (h : g.Path k t)
    (hrepeated : ¬ t.skipped.Nodup) :
    ∃ r ∈ g.rules,
      ∃ e e', g.Conflict ⟨r.id, none, 0⟩ e e' ∧ e.skipped.Nodup ∧ e'.skipped.Nodup := by
  have hforks : g.Forks t.target t.token := by
    cases h with
    | entry hr hway | onward hr hway | again hr _ _ _ _ hway => exact hway.exists_short hr hrepeated
  obtain ⟨r, hr, pattern, pattern', chain, chain', hway, hway', hnodup, hnodup', hne⟩ := hforks
  refine ⟨r, hr, _, _, ⟨.entry hr hway, .entry hr hway', ?_, rfl⟩, hnodup, hnodup'⟩
  intro heq
  exact hne (congrArg Transition.skipped heq)

/-- A wired state keeps what it was made with, and holds the transitions met. -/
theorem IsBlank.wired {g : Grammar α} {r : Rule α} {s s' : State} (h : g.IsBlank r s)
    (hok : s.addAll (g.outgoing r s) = .ok s') :
    s' = { s with transitions := g.outgoing r s } ∧
      (g.outgoing r s).Pairwise fun e t => e.token ≠ t.token := by
  rcases State.addAll_cases s (g.outgoing r s) with ⟨hok', hpair⟩ | ⟨_, _, _, _, _, _, _, herror⟩
  · rw [hok, h.transitions, List.nil_append] at hok'
    rw [h.transitions, List.nil_append] at hpair
    exact ⟨Except.ok.inj hok', hpair .nil⟩
  · rw [hok] at herror
    cases herror

/-- A state that was wired has no conflict between paths without repetition. -/
theorem IsBlank.not_conflict {g : Grammar α} (hg : g.Closed) {r : Rule α} (hr : r ∈ g.rules)
    {s s' : State} (h : g.IsBlank r s) (hok : s.addAll (g.outgoing r s) = .ok s')
    {t t' : Transition} (hconflict : g.Conflict s.key t t') (ht : t.skipped.Nodup)
    (ht' : t'.skipped.Nodup) : False := by
  obtain ⟨hpath, hpath', hne, htoken⟩ := hconflict
  have hmem := (h.mem_outgoing hg hr t).mpr ⟨hpath, ht⟩
  have hmem' := (h.mem_outgoing hg hr t').mpr ⟨hpath', ht'⟩
  have hsymm : Std.Symm fun e t : Transition => e.token ≠ t.token := ⟨fun _ _ h => Ne.symm h⟩
  exact (h.wired hok).2.forall hmem hmem' hne htoken

/-- The transition that is refused is in conflict with the one that was there. -/
theorem IsBlank.conflict_of_ambiguous {g : Grammar α} (hg : g.Closed) {r : Rule α}
    (hr : r ∈ g.rules) {s : State} (h : g.IsBlank r s) {fault : Fault}
    (herror : s.addAll (g.outgoing r s) = .error fault) :
    ∃ s' e t, fault = .ambiguous s' e t ∧ g.Conflict s'.key e t := by
  rcases State.addAll_cases s (g.outgoing r s)
    with ⟨hok, -⟩ | ⟨before, t, after, e, heq, he, htoken, herror'⟩
  · rw [hok] at herror
    cases herror
  · rw [herror] at herror'
    rw [h.transitions, List.nil_append] at he
    have hnodup := nodup_outgoing hg hr h
    rw [heq] at hnodup
    have hmem : e ∈ g.outgoing r s := by
      rw [heq]
      exact List.mem_append_left _ he
    have hmem' : t ∈ g.outgoing r s := by
      rw [heq]
      exact List.mem_append_right _ (List.mem_cons_self ..)
    refine ⟨_, e, t, Except.error.inj herror', ((h.mem_outgoing hg hr e).mp hmem).1,
      ((h.mem_outgoing hg hr t).mp hmem').1, ?_, htoken⟩
    exact (List.nodup_append.mp hnodup).2.2 e he t (List.mem_cons_self ..)

/-- Every state of a grammar was made for it. -/
theorem Place.exists_blank {g : Grammar α} {k : Key} (h : g.Place k) :
    ∃ r ∈ g.rules, ∃ s, g.IsBlank r s ∧ k = s.key := by
  cases h with
  | entry hr => exact ⟨_, hr, _, .inl rfl, rfl⟩
  | inside hr hp hi => exact ⟨_, hr, _, .inr ⟨_, _, hp, _, hi, rfl⟩, rfl⟩

/-- A state that a path starts from is one of the grammar. -/
theorem Path.place {g : Grammar α} {k : Key} {t : Transition} (h : g.Path k t) : g.Place k := by
  cases h with
  | entry hr _ => exact .entry hr
  | onward hr hway =>
    obtain ⟨p, hp, hi⟩ := hway.exists_element
    exact .inside hr hp (Nat.lt_of_succ_lt hi)
  | again hr hp hi => exact .inside hr hp hi

/-- Blank states are at the places of the grammar. -/
theorem IsBlank.place {g : Grammar α} {r : Rule α} (hr : r ∈ g.rules) {s : State}
    (h : g.IsBlank r s) : g.Place s.key := by
  rcases h with rfl | ⟨pattern, p, hp, index, hi, rfl⟩
  · exact .entry hr
  · exact .inside hr hp hi

/-- A blank state is reducible where its pattern may end. -/
theorem IsBlank.reducible {g : Grammar α} {r : Rule α} (hr : r ∈ g.rules) {s : State}
    (h : g.IsBlank r s) : s.reducible = true ↔ g.Ending s.key := by
  rcases h with rfl | ⟨pattern, p, hp, index, hi, rfl⟩
  · exact reducible_blankEntry hr
  · exact reducible_blankInside hr hp hi

/-- A blank state belongs to its rule, and records whether that may come several times. -/
theorem IsBlank.rule {g : Grammar α} {r : Rule α} {s : State} (h : g.IsBlank r s) :
    s.key.rule = r.id ∧ s.repeats = r.repeatable := by
  rcases h with rfl | ⟨_, _, _, _, _, rfl⟩ <;> exact ⟨rfl, rfl⟩

/-- It shows the elements of its pattern. -/
theorem IsBlank.tokens {g : Grammar α} {r : Rule α} {s : State} (h : g.IsBlank r s) {pattern : Nat}
    {p : Pattern α} (hk : s.key.pattern = some pattern) (hp : r.patterns[pattern]? = some p) :
    s.tokens = p.tokens := by
  rcases h with rfl | ⟨pattern', p', hp', index, hi, rfl⟩
  · cases hk
  · cases hk
    rw [hp'] at hp
    cases hp
    rfl

/-- If all states were wired, no path repeats a reference. -/
theorem nodup_of_wired {g : Grammar α} (hg : g.Closed) {table : Table}
    (hto : ∀ r ∈ g.rules, ∀ s, g.IsBlank r s → ∃ s' ∈ table, s.addAll (g.outgoing r s) = .ok s')
    {k : Key} {t : Transition} (h : g.Path k t) : t.skipped.Nodup := by
  by_contra hrepeated
  obtain ⟨r, hr, e, e', hconflict, he, he'⟩ := h.exists_conflict hrepeated
  have hb : g.IsBlank r (g.blankEntry r) := .inl rfl
  obtain ⟨s', -, hok⟩ := hto r hr _ hb
  exact hb.not_conflict hg hr hok hconflict he he'

/-- The states of a grammar, all wired, make its table. -/
theorem tableOf_of_wired {g : Grammar α} (hg : g.Closed) {table : Table}
    (hof : ∀ s' ∈ table, ∃ r ∈ g.rules, ∃ s, g.IsBlank r s ∧ s.addAll (g.outgoing r s) = .ok s')
    (hto : ∀ r ∈ g.rules, ∀ s, g.IsBlank r s → ∃ s' ∈ table, s.addAll (g.outgoing r s) = .ok s') :
    TableOf g table where
  place s' hs' := by
    obtain ⟨r, hr, s, hb, hok⟩ := hof s' hs'
    obtain ⟨rfl, -⟩ := hb.wired hok
    exact hb.place hr
  complete k hk := by
    obtain ⟨r, hr, s, hb, rfl⟩ := hk.exists_blank
    obtain ⟨s', hs', hok⟩ := hto r hr s hb
    obtain ⟨rfl, -⟩ := hb.wired hok
    exact ⟨_, hs', rfl⟩
  path s' hs' t := by
    obtain ⟨r, hr, s, hb, hok⟩ := hof s' hs'
    obtain ⟨rfl, -⟩ := hb.wired hok
    have hmem := hb.mem_outgoing hg hr t
    exact ⟨fun ht => (hmem.mp ht).1, fun ht => hmem.mpr ⟨ht, nodup_of_wired hg hto ht⟩⟩
  deterministic s' hs' := by
    obtain ⟨r, hr, s, hb, hok⟩ := hof s' hs'
    obtain ⟨rfl, hdistinct⟩ := hb.wired hok
    exact hdistinct
  reducible s' hs' := by
    obtain ⟨r, hr, s, hb, hok⟩ := hof s' hs'
    obtain ⟨rfl, -⟩ := hb.wired hok
    exact hb.reducible hr
  tokens s' hs' r hr pattern p hid hk hp := by
    obtain ⟨r', hr', s, hb, hok⟩ := hof s' hs'
    obtain ⟨rfl, -⟩ := hb.wired hok
    obtain rfl := eq_of_id_eq hr' hr (hb.rule.1.symm.trans hid)
    exact hb.tokens hk hp
  repeats s' hs' r hr hid := by
    obtain ⟨r', hr', s, hb, hok⟩ := hof s' hs'
    obtain ⟨rfl, -⟩ := hb.wired hok
    obtain rfl := eq_of_id_eq hr' hr (hb.rule.1.symm.trans hid)
    exact hb.rule.2

/--
**The two outcomes of compiling.** Either the grammar is refused, for two different paths of a state
on the same token, or no state has such paths and the table holds what it should.
-/
theorem compile_cases {g : Grammar α} (hg : g.Closed) :
    (∃ s e t, (g.compile.run []).result = .error (.ambiguous s e t) ∧ g.Conflict s.key e t) ∨
    ∃ table, (g.compile.run []).result = .ok table ∧ TableOf g table ∧
        ∀ k t t', ¬ g.Conflict k t t' := by
  obtain ⟨optional, hopt, hresult⟩ := compile_result hg
  rw [hresult]
  have hblank : ∀ s ∈ g.blanks g.rules, ∃ r ∈ g.rules, g.IsBlank r s := fun s hs => mem_blanks.mp hs
  rcases mapM_cases (g.wire optional) (g.blanks g.rules) with
    ⟨table, hok, hof, hto⟩ | ⟨s, hs, fault, hfault, herror⟩
  · refine .inr ⟨table, hok, ?_⟩
    have hof' : ∀ s' ∈ table,
        ∃ r ∈ g.rules, ∃ s, g.IsBlank r s ∧ s.addAll (g.outgoing r s) = .ok s' := by
      intro s' hs'
      obtain ⟨s, hs, hwire⟩ := hof s' hs'
      obtain ⟨r, hr, hb⟩ := hblank s hs
      rw [hb.wire hg hopt hr] at hwire
      exact ⟨r, hr, s, hb, hwire⟩
    have hto' : ∀ r ∈ g.rules,
        ∀ s, g.IsBlank r s → ∃ s' ∈ table, s.addAll (g.outgoing r s) = .ok s' := by
      intro r hr s hb
      obtain ⟨s', hs', hwire⟩ := hto s (mem_blanks.mpr ⟨r, hr, hb⟩)
      rw [hb.wire hg hopt hr] at hwire
      exact ⟨s', hs', hwire⟩
    refine ⟨tableOf_of_wired hg hof' hto', ?_⟩
    intro k t t' hconflict
    obtain ⟨r, hr, s, hb, rfl⟩ := hconflict.1.place.exists_blank
    obtain ⟨s', -, hok⟩ := hto' r hr s hb
    exact hb.not_conflict hg hr hok hconflict (nodup_of_wired hg hto' hconflict.1)
      (nodup_of_wired hg hto' hconflict.2.1)
  · obtain ⟨r, hr, hb⟩ := hblank s hs
    rw [hb.wire hg hopt hr] at hfault
    obtain ⟨s', e, t, rfl, hconflict⟩ := hb.conflict_of_ambiguous hg hr hfault
    exact .inl ⟨s', e, t, herror, hconflict⟩

/-- What a table that was compiled holds. -/
theorem tableOf_of_compile {g : Grammar α} (hg : g.Closed) {table : Table}
    (h : (g.compile.run []).result = .ok table) : TableOf g table := by
  rcases compile_cases hg with ⟨s, e, t, herror, -⟩ | ⟨table', hok, hof, -⟩
  · rw [h] at herror
    cases herror
  · rw [h] at hok
    cases hok
    exact hof

/--
**Tables are exact.** Compiling a closed grammar comes to an end, with a table or with a refusal.

- It is refused exactly if some state has two different paths on the same token, and the pair it is
  refused for is such a pair.
- A rule that is left-recursive, and leads to a terminal at all, has it refused.
- A table holds all states, and the transitions of each are its paths, though wiring never follows a
  reference twice and paths may.
-/
theorem compile_exact {g : Grammar α} (hg : g.Closed) :
    ((∃ table, (g.compile.run []).result = .ok table) ∨
      ∃ s e t, (g.compile.run []).result = .error (.ambiguous s e t)) ∧
    ((∃ s e t, (g.compile.run []).result = .error (.ambiguous s e t)) ↔ ∃ k e t, g.Conflict k e t) ∧
    (∀ s e t, (g.compile.run []).result = .error (.ambiguous s e t) → g.Conflict s.key e t) ∧
    (∀ r ∈ g.rules, g.LeftRecursive r → (∃ t, g.Path ⟨r.id, none, 0⟩ t) →
      ∃ s e t, (g.compile.run []).result = .error (.ambiguous s e t)) ∧
    ∀ table, (g.compile.run []).result = .ok table → TableOf g table := by
  have hrefused : (∃ k e t, g.Conflict k e t) →
      ∃ s e t, (g.compile.run []).result = .error (.ambiguous s e t) := by
    rintro ⟨k, e, t, hconflict⟩
    rcases compile_cases hg with ⟨s, e', t', herror, -⟩ | ⟨_, -, -, hnone⟩
    · exact ⟨s, e', t', herror⟩
    · exact absurd hconflict (hnone k e t)
  have hpair : ∀ s e t, (g.compile.run []).result = .error (.ambiguous s e t) →
      g.Conflict s.key e t := by
    intro s e t herror
    rcases compile_cases hg with ⟨s', e', t', herror', hconflict⟩ | ⟨_, hok, -, -⟩
    · rw [herror] at herror'
      cases herror'
      exact hconflict
    · rw [herror] at hok
      cases hok
  refine ⟨?_, ⟨?_, hrefused⟩, hpair, ?_, fun table h => tableOf_of_compile hg h⟩
  · rcases compile_cases hg with ⟨s, e, t, herror, -⟩ | ⟨table, hok, -, -⟩
    · exact .inr ⟨s, e, t, herror⟩
    · exact .inl ⟨table, hok⟩
  · rintro ⟨s, e, t, herror⟩
    exact ⟨s.key, e, t, hpair s e t herror⟩
  · rintro r hr hrec ⟨t, hpath⟩
    obtain ⟨t', hpath', hne, htoken⟩ := hpath.two_of_leftRecursive hr hrec
    exact hrefused ⟨_, t, t', hpath, hpath', hne, htoken⟩

/-- Sums with the recursion on the left: a sum is a sum and an item, or an item. -/
private def leftSums : Grammar Unit where
  rules := [{ id := ⟨"sum", 0⟩
              patterns := [.ofTokens [⟨.reference, "sum"⟩, ⟨.literal, "+"⟩, ⟨.category, "ID"⟩] none,
                .ofTokens [⟨.category, "ID"⟩] none] }]

/-- The left-recursive sums refer to rules that there are. -/
private theorem closed_leftSums : leftSums.Closed := by decide

/-- Left recursion is refused: a sum reaches its first item directly, and through itself. -/
theorem compile_leftSums :
    leftSums.Closed ∧ ∃ s e t, (leftSums.compile.run []).result = .error (.ambiguous s e t) := by
  have hrec : leftSums.LeftRecursive leftSums.rules[0] :=
    .single ⟨0, 0, _, _, rfl, rfl, rfl, rfl, by simp⟩
  have hway : leftSums.Way leftSums.rules[0] 1 0 [] ⟨leftSums.rules[0].id, some 1, 0⟩
      (Descriptor.normalized ⟨.category, "ID"⟩) :=
    .terminal rfl rfl rfl
  have hmem : leftSums.rules[0] ∈ leftSums.rules := List.mem_cons_self ..
  exact ⟨closed_leftSums, (compile_exact closed_leftSums).2.2.2.1 _ hmem hrec ⟨_, .entry hmem hway⟩⟩

end Grammar

end GrammarEngine
