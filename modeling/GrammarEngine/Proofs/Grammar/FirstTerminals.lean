import GrammarEngine.Grammar.First
import GrammarEngine.Proofs.Grammar.Exactness

/-!
# First terminals leave the entry state

What a rule can begin with is worked out twice. The search for first terminals follows references
into rules with a single pattern, never looks beyond a reference, and remembers the names of the
rules that it went through. The table follows all references, goes on behind those to optional
rules, and remembers the positions in the chain.

`Grammar.Finds` is the first search without a bound: nothing limits the number of rules it goes
through, except that it stops at a rule met before. The search terminates if this relation has a
result, whatever the cycles of the grammar. What it finds is then a way in the sense of the table,
made of references that are entered and never passed over.

Main results:

* `finds_firstOf?` — the bound on the number of rules is never reached.
* `Finds.way` — a terminal that is found leaves the start of the pattern on a way.
* `firstOfRule_leaves_entry` — the first terminals of a rule are tokens of its entry state.
-/

namespace GrammarEngine

namespace Grammar

variable {α : Type} {g : Grammar α} {r : Rule α} {visited : List String} {tokens : List Descriptor}

-- ---------------------------------------------------------------------------
-- The search without a bound
-- ---------------------------------------------------------------------------

/-- `Finds g visited tokens first`: the search for the first terminal of a row of elements comes to
its end with `first`, if the rules named in `visited` were met before. -/
inductive Finds (g : Grammar α) : List String → List Descriptor → Option Descriptor → Prop
  | empty {visited : List String} : Finds g visited [] none
  | terminal {visited : List String} {d : Descriptor} {rest : List Descriptor}
      (ht : d.isTerminal = true) : Finds g visited (d :: rest) (some d)
  /-- The reference is to no rule, to one with alternatives or without patterns, or to
  one met before. -/
  | stopped {visited : List String} {d : Descriptor} {rest : List Descriptor}
      (ht : d.isTerminal = false)
      (hstop : ∀ r p, g.find? d.name = some r → r.patterns = [p] → r.name ∈ visited) :
      Finds g visited (d :: rest) none
  /-- The reference is followed. -/
  | follow {visited : List String} {d : Descriptor} {rest : List Descriptor} {r : Rule α}
      {p : Pattern α} {first : Option Descriptor} (ht : d.isTerminal = false)
      (hr : g.find? d.name = some r) (hp : r.patterns = [p]) (hnew : r.name ∉ visited)
      (h : Finds g (r.name :: visited) p.tokens first) : Finds g visited (d :: rest) first

/-- The search has one result at most. -/
theorem Finds.unique {first other : Option Descriptor} (h : g.Finds visited tokens first)
    (h' : g.Finds visited tokens other) : first = other := by
  induction h generalizing other with
  | empty =>
    cases h'
    rfl
  | terminal ht =>
    cases h' with
    | terminal => rfl
    | stopped ht' | follow ht' => simp [ht] at ht'
  | stopped ht hstop =>
    cases h' with
    | terminal ht' => simp [ht] at ht'
    | stopped => rfl
    | follow _ hr hp hnew => exact absurd (hstop _ _ hr hp) hnew
  | follow ht hr hp hnew _ ih =>
    cases h' with
    | terminal ht' => simp [ht] at ht'
    | stopped _ hstop => exact absurd (hstop _ _ hr hp) hnew
    | follow _ hr' hp' _ h' =>
      rw [hr] at hr'
      cases hr'
      rw [hp] at hp'
      cases hp'
      exact ih h'

/-- Different names of rules are at most as many as the rules. -/
theorem length_le_of_names (hnodup : visited.Nodup) (hnames : visited ⊆ g.rules.map Rule.name) :
    visited.length ≤ g.rules.length := by
  have := (hnodup.subperm hnames).length_le
  rwa [List.length_map] at this

/-- A rule with a single pattern that was not met before is followed. -/
theorem firstOf?_follow (n : Nat) {d : Descriptor} (rest : List Descriptor) {p : Pattern α}
    (ht : d.isTerminal = false) (hr : g.find? d.name = some r) (hp : r.patterns = [p])
    (hnew : r.name ∉ visited) :
    g.firstOf? (n + 1) visited (d :: rest) = g.firstOf? n (r.name :: visited) p.tokens := by
  conv_lhs => unfold firstOf?
  simp [ht, hr, hp, hnew]

/-- At any other reference the search stops. -/
theorem firstOf?_stopped (n : Nat) {d : Descriptor}
    (rest : List Descriptor) (ht : d.isTerminal = false)
    (hstop : ∀ r p, g.find? d.name = some r → r.patterns = [p] → r.name ∈ visited) :
    g.firstOf? (n + 1) visited (d :: rest) = none := by
  unfold firstOf?
  simp only [ht, Bool.false_eq_true, if_false]
  cases hr : g.find? d.name with
  | none => rfl
  | some r =>
    simp only
    split
    · next p hp => rw [if_pos (hstop r p hr hp)]
    · rfl

/--
**The search terminates.** Each rule gone through adds a name to those met before, and they are all
different, so the bound on their number is never what ends the search.
-/
theorem finds_firstOf? (n : Nat) (visited : List String) (tokens : List Descriptor)
    (hnodup : visited.Nodup)
    (hnames : visited ⊆ g.rules.map Rule.name) (hlen : g.rules.length < n + visited.length) :
    g.Finds visited tokens (g.firstOf? n visited tokens) := by
  induction n generalizing visited tokens with
  | zero =>
    have := length_le_of_names hnodup hnames
    omega
  | succ n ih =>
    rcases tokens with _ | ⟨d, rest⟩
    · rw [firstOf?]
      exact .empty
    · cases ht : d.isTerminal with
      | true =>
        rw [firstOf?_terminal g _ _ rest ht]
        exact .terminal ht
      | false =>
        by_cases hstop : ∀ r p, g.find? d.name = some r → r.patterns = [p] → r.name ∈ visited
        · rw [firstOf?_stopped n rest ht hstop]
          exact .stopped ht hstop
        · push Not at hstop
          obtain ⟨r, p, hr, hp, hnew⟩ := hstop
          rw [firstOf?_follow n rest ht hr hp hnew]
          have hmem : r.name ∈ g.rules.map Rule.name :=
            List.mem_map_of_mem (mem_of_find?_eq_some hr)
          refine .follow ht hr hp hnew
            (ih _ _ (List.nodup_cons.mpr ⟨hnew, hnodup⟩) (List.cons_subset.mpr ⟨hmem, hnames⟩) ?_)
          rw [List.length_cons]
          omega

/-- The search for a pattern of a rule starts with the name of the rule as met. -/
theorem finds_of_rule (hr : r ∈ g.rules) (p : Pattern α) :
    g.Finds [r.name] p.tokens (g.firstOf? (g.rules.length + 1) [r.name] p.tokens) := by
  refine finds_firstOf? _ _ _ (List.nodup_singleton _) ?_ ?_
  · exact List.cons_subset.mpr ⟨List.mem_map_of_mem hr, List.nil_subset _⟩
  · rw [List.length_singleton]
    omega

/-- The first terminals of a rule are what the search for its patterns finds. -/
theorem mem_firstOfRule_iff (hr : r ∈ g.rules) {d : Descriptor} :
    d ∈ g.firstOfRule r ↔ ∃ p ∈ r.patterns, g.Finds [r.name] p.tokens (some d) := by
  rw [firstOfRule, List.mem_eraseDups, List.mem_filterMap]
  refine exists_congr fun p => and_congr_right fun _ => ?_
  constructor
  · intro h
    have hfound := finds_of_rule hr p
    rwa [h] at hfound
  · exact fun h => (finds_of_rule hr p).unique h

-- ---------------------------------------------------------------------------
-- What is found is on a way
-- ---------------------------------------------------------------------------

/-- A terminal that is found stands at the end of a way from the start of the pattern. The way
enters the references that the search followed. -/
theorem Finds.way {d : Descriptor}
    (h : g.Finds visited tokens (some d)) {r : Rule α} {pattern : Nat} {p : Pattern α}
    (hp : r.patterns[pattern]? = some p) (htokens : p.tokens = tokens) :
    ∃ chain target, g.Way r pattern 0 chain target d.normalized := by
  generalize hfirst : some d = first at h
  induction h generalizing r pattern p with
  | empty | stopped => cases hfirst
  | terminal ht =>
    cases hfirst
    exact ⟨_, _, .terminal hp (by rw [htokens]; rfl) ht⟩
  | @follow _ _ _ s only _ ht hs honly _ _ ih =>
    have hzero : s.patterns[0]? = some only := by
      rw [honly]
      rfl
    obtain ⟨chain, target, hway⟩ := ih hzero rfl hfirst
    exact ⟨_, _, .enter hp (by rw [htokens]; rfl) ht hs hway⟩

/--
**First terminals leave the entry state.** For a closed grammar that was compiled, the search for
the first terminals of a rule terminates at every pattern of the rule, the first terminals are what
it finds, and each of them is the token of a transition that leaves the entry state of the rule. The
end of the input counts as one token there, however its descriptor was made.
-/
theorem firstOfRule_leaves_entry {table : Table}
    (hg : g.Closed) (h : (g.compile.run []).result = .ok table) (hr : r ∈ g.rules) :
    (∀ p ∈ r.patterns, ∃! first, g.Finds [r.name] p.tokens first) ∧
    (∀ d, d ∈ g.firstOfRule r ↔ ∃ p ∈ r.patterns, g.Finds [r.name] p.tokens (some d)) ∧
    ∃ e, table.find? ⟨r.id, none, 0⟩ = some e ∧ ∀ d ∈ g.firstOfRule r,
      ∃ t, e.find? d.normalized = some t ∧ (t.token = d ∨
        d.kind = .endOfInput ∧ t.token = .atEnd) := by
  have htable := tableOf_of_compile hg h
  obtain ⟨e, he⟩ := htable.exists_find?_iff.mpr (.entry hr)
  refine ⟨fun p _ => ?_, fun d => mem_firstOfRule_iff hr, e, he, fun d hd => ?_⟩
  · exact ⟨_, finds_of_rule hr p, fun other hother => hother.unique (finds_of_rule hr p)⟩
  · obtain ⟨p, hp, hfinds⟩ := (mem_firstOfRule_iff hr).mp hd
    obtain ⟨pattern, hpattern⟩ := List.getElem?_of_mem hp
    obtain ⟨chain, target, hway⟩ := hfinds.way hpattern rfl
    have hfind := htable.find?_of_path (t := ⟨d.normalized, target, chain, false⟩)
      (List.mem_of_find?_eq_some he) (by rw [Table.key_of_find?_eq_some he]; exact .entry hr hway)
    refine ⟨_, hfind, ?_⟩
    unfold Descriptor.normalized
    split
    · next hkind => exact .inr ⟨hkind, rfl⟩
    · exact .inl rfl

/-- Statements are groups of values, which may be groups again; a circle is nothing but
another one. -/
private def groupings : Grammar Unit where
  rules := [{ id := ⟨"statement", 0⟩
              patterns := [.ofTokens [⟨.reference, "group"⟩, ⟨.literal, "."⟩] none] },
    { id := ⟨"group", 0⟩
      patterns := [.ofTokens [⟨.literal, "("⟩, ⟨.reference, "value"⟩, ⟨.literal, ")"⟩] none] },
    { id := ⟨"value", 0⟩
      patterns := [.ofTokens [⟨.category, "ID"⟩] none, .ofTokens [⟨.reference, "group"⟩] none] },
    { id := ⟨"circle", 0⟩, patterns := [.ofTokens [⟨.reference, "circle"⟩] none] }]
  distinct := by decide

/-- A statement begins with the bracket of its group, and so does the table; the search for the
first terminals of a circle ends without one. -/
theorem firstOfRule_groupings :
    groupings.Closed ∧ groupings.firstOfRule groupings.rules[0] = [⟨.literal, "("⟩] ∧
      groupings.firstOfRule groupings.rules[3] = [] ∧
      ∃ table, (groupings.compile.run []).result = .ok table ∧
        ∃ e, table.find? ⟨⟨"statement", 0⟩, none, 0⟩ = some e ∧
        ∃ t, e.find? ⟨.literal, "("⟩ = some t := by
  have hclosed : groupings.Closed := by decide
  have hfirst : groupings.firstOfRule groupings.rules[0] = [⟨.literal, "("⟩] := by decide +kernel
  obtain ⟨table, htable⟩ : ∃ table, (groupings.compile.run []).result = .ok table := by
    rcases compile_cases hclosed with ⟨s, e, t, herror, -⟩ | ⟨table, hok, -⟩
    · have hok : (groupings.compile.run []).result.toOption.isSome = true := by decide +kernel
      rw [herror] at hok
      cases hok
    · exact ⟨table, hok⟩
  obtain ⟨-, -, e, he, hleaves⟩ := firstOfRule_leaves_entry hclosed htable (r := groupings.rules[0])
    (List.mem_cons_self ..)
  obtain ⟨t, ht, -⟩ := hleaves ⟨.literal, "("⟩ (by rw [hfirst]; exact List.mem_singleton_self _)
  exact ⟨hclosed, hfirst, by decide +kernel, table, htable, e, he, t, ht⟩

end Grammar

end GrammarEngine
