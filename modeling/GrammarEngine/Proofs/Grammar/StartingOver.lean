import GrammarEngine.Proofs.Grammar.Exactness

/-!
# Where a rule starts over

A state carries a flag that its pattern may end there, and it may carry transitions that loop back,
which end the pattern and start the rule over. The two are worked out apart. The flag comes from the
number of references to optional rules that is counted from the last element on. A transition that
loops back is made when the pattern is followed from the state on and its end is reached. A parser
that takes such a transition never asks for the flag, so the flag has to be set wherever one leaves.

Main results:

* `TableOf.of_loopBack` — a transition that loops back leaves a state where the pattern may end, and
  leads first into a pattern of the same rule.
* `TableOf.find?_loopBack` — where the pattern of a repeatable rule may end, the rule starts over on
  every token that it can begin with.
* `startsOver_iff_mayEnd` — the flag and the transitions that loop back agree in every table
  that was compiled.
-/

namespace GrammarEngine

variable {α : Type} {g : Grammar α} {table : Table} {r : Rule α}

/-- The first state that a transition passes, which is its target if it skips none, belongs to a
pattern of a rule, and only references to optional rules stand in front of it. -/
def Grammar.Restarts (g : Grammar α) (r : Rule α) (t : Transition) : Prop :=
  ∃ (other first : Nat) (p : Pattern α),
    (t.skipped ++ [t.target]).head? = some ⟨r.id, some other, first⟩ ∧
    r.patterns[other]? = some p ∧ first < p.tokens.length ∧ ∀ d ∈ p.tokens.take first, g.Skippable d

theorem Grammar.Way.restarts {pattern : Nat} {t : Transition}
    (h : g.Way r pattern 0 t.skipped t.target t.token) : g.Restarts r t := by
  obtain ⟨p, hp, -⟩ := h.exists_element
  obtain ⟨first, d, -, hd, hbefore, hnext⟩ := h.exists_next hp
  refine ⟨pattern, first, p, ?_, hp, (List.getElem?_eq_some_iff.mp hd).1, hbefore⟩
  rcases hnext with ⟨-, hchain, htarget, -⟩ | ⟨_, _, _, -, -, hchain, -⟩
  · rw [hchain, htarget]
    rfl
  · rw [hchain]
    rfl

namespace TableOf

-- ---------------------------------------------------------------------------
-- The flag
-- ---------------------------------------------------------------------------

/-- The flag of the entry state says whether the rule is optional. -/
theorem reducible_entry_iff (htable : TableOf g table) (hr : r ∈ g.rules) {e : State}
    (he : table.find? ⟨r.id, none, 0⟩ = some e) : e.reducible = true ↔ g.Vanishing r := by
  rw [htable.reducible e (List.mem_of_find?_eq_some he), Table.key_of_find?_eq_some he]
  exact Grammar.ending_entry_iff hr

/-- The flag of a state inside a pattern says whether all elements behind it are references to
optional rules. -/
theorem reducible_inside_iff (htable : TableOf g table) (hr : r ∈ g.rules) {pattern index : Nat}
    {p : Pattern α} (hp : r.patterns[pattern]? = some p) (hi : index < p.tokens.length) {s : State}
    (hs : table.find? ⟨r.id, some pattern, index⟩ = some s) :
    s.reducible = true ↔ ∀ d ∈ p.tokens.drop (index + 1), g.Skippable d := by
  rw [htable.reducible s (List.mem_of_find?_eq_some hs), Table.key_of_find?_eq_some hs]
  exact Grammar.ending_inside_iff hr hp hi

-- ---------------------------------------------------------------------------
-- The transitions that loop back
-- ---------------------------------------------------------------------------

/-- What a transition that loops back leaves, and where it leads first. -/
theorem of_loopBack (htable : TableOf g table) {s : State} (hs : s ∈ table) {t : Transition}
    (ht : t ∈ s.transitions) (hloop : t.loopBack = true) :
    s.reducible = true ∧ ∃ r ∈ g.rules, r.repeatable = true ∧ g.Restarts r t ∧
      ∃ pattern p index, r.patterns[pattern]? = some p ∧ index < p.tokens.length ∧
        s.key = ⟨r.id, some pattern, index⟩ := by
  have hpath := (htable.path s hs t).mp ht
  refine ⟨(htable.reducible s hs).mpr (hpath.of_loopBack hloop).1, ?_⟩
  generalize s.key = k at hpath
  cases hpath with
  | entry | onward => cases hloop
  | again hr hp hi hrepeat _ hway => exact ⟨_, hr, hrepeat, hway.restarts, _, _, _, hp, hi, rfl⟩

/-- Where a pattern of a repeatable rule may end, there is a transition that loops back for every
one that leaves the entry state of the rule, over the same states to the same target. -/
theorem find?_loopBack (htable : TableOf g table) (hr : r ∈ g.rules) (hrepeat : r.repeatable = true)
    {pattern index : Nat} {p : Pattern α}
    (hp : r.patterns[pattern]? = some p) (hi : index < p.tokens.length) {s e : State}
    (hs : table.find? ⟨r.id, some pattern, index⟩ = some s) (hends : s.reducible = true)
    (he : table.find? ⟨r.id, none, 0⟩ = some e) {t : Transition} (ht : t ∈ e.transitions) :
    s.find? t.token = some { t with loopBack := true } := by
  have hrest := (htable.reducible_inside_iff hr hp hi hs).mp hends
  have hpath := (htable.path e (List.mem_of_find?_eq_some he) t).mp ht
  rw [Table.key_of_find?_eq_some he, Grammar.path_entry_iff hr] at hpath
  obtain ⟨other, chain, target, token, rfl, hway⟩ := hpath
  refine htable.find?_of_path (t := ⟨token, target, chain, true⟩) (List.mem_of_find?_eq_some hs) ?_
  rw [Table.key_of_find?_eq_some hs]
  exact .again hr hp hi hrepeat hrest hway

end TableOf

-- ---------------------------------------------------------------------------
-- Tables that were compiled
-- ---------------------------------------------------------------------------

namespace Grammar

/--
**A rule starts over exactly where its pattern may end.** In a table that was compiled every rule
has its entry state, whose flag is the answer to the question whether the rule is optional, and
every element of its patterns has the state behind it.

- The flag of a state inside a pattern says whether all elements behind it are references
  to optional rules.
- If it is set, and the rule is repeatable, the state loops back on every token that leaves
  the entry state.
- Wherever a transition loops back it leaves such a state, and the first state it passes belongs to
  a pattern of the same rule with only references to optional rules in front.
-/
theorem startsOver_iff_mayEnd (hg : g.Closed) (h : (g.compile.run []).result = .ok table) :
    (∀ r ∈ g.rules, ∃ e, table.find? ⟨r.id, none, 0⟩ = some e ∧
      (e.reducible = true ↔ g.Vanishing r) ∧ ((g.isOptional r).run []).result = .ok e.reducible ∧
      ∀ pattern p, r.patterns[pattern]? = some p → ∀ index < p.tokens.length,
        ∃ s, table.find? ⟨r.id, some pattern, index⟩ = some s ∧
          (s.reducible = true ↔ ∀ d ∈ p.tokens.drop (index + 1), g.Skippable d) ∧
          (s.reducible = true → r.repeatable = true → ∀ t ∈ e.transitions,
            s.find? t.token = some { t with loopBack := true })) ∧
    ∀ s ∈ table, ∀ t ∈ s.transitions, t.loopBack = true →
      s.reducible = true ∧ ∃ r ∈ g.rules, r.repeatable = true ∧ g.Restarts r t ∧
        ∃ pattern p index, r.patterns[pattern]? = some p ∧ index < p.tokens.length ∧
          s.key = ⟨r.id, some pattern, index⟩ := by
  have htable := tableOf_of_compile hg h
  refine ⟨fun r hr => ?_, fun s hs t ht hloop => htable.of_loopBack hs ht hloop⟩
  obtain ⟨e, he⟩ := htable.exists_find?_iff.mpr (.entry hr)
  have hends := htable.reducible_entry_iff hr he
  refine ⟨e, he, hends, ?_, fun pattern p hp index hi => ?_⟩
  · obtain ⟨_, hrun, -, -⟩ := settles_isOptional hg hr [] (truthful_nil g)
    have hanswer : g.vanishes r = e.reducible := by rw [Bool.eq_iff_iff, vanishes_eq_true, hends]
    rw [hrun, hanswer]
  · obtain ⟨s, hs⟩ := htable.exists_find?_iff.mpr (.inside hr hp hi)
    exact ⟨s, hs, htable.reducible_inside_iff hr hp hi hs,
      fun hmay hrepeat t ht => htable.find?_loopBack hr hrepeat hp hi hs hmay he ht⟩

/-- Marked items: each is a name with a mark behind it, or without one. -/
private def markedItems : Grammar Unit where
  rules := [{ id := ⟨"items", 0⟩
              patterns := [.ofTokens [⟨.category, "ID"⟩, ⟨.reference, "mark"⟩] none]
              repeatable := true },
    { id := ⟨"mark", 0⟩, patterns := [.ofTokens [⟨.literal, "!"⟩] none], markedOptional := true }]
  distinct := by decide

/-- Behind the name of a marked item the mark may be missing, so the next item may follow. -/
theorem startsOver_markedItems :
    markedItems.Closed ∧ ∃ table, (markedItems.compile.run []).result = .ok table ∧
      ∃ s, table.find? ⟨⟨"items", 0⟩, some 0, 0⟩ = some s ∧ s.reducible = true ∧
        ∀ t ∈ s.transitions, t.loopBack = true → markedItems.Restarts markedItems.rules[0] t := by
  have hclosed : markedItems.Closed := by decide
  obtain ⟨table, htable⟩ : ∃ table, (markedItems.compile.run []).result = .ok table := by
    rcases compile_cases hclosed with ⟨s, e, t, herror, -⟩ | ⟨table, hok, -⟩
    · have hok : (markedItems.compile.run []).result.toOption.isSome = true := by decide +kernel
      rw [herror] at hok
      cases hok
    · exact ⟨table, hok⟩
  obtain ⟨hflags, hloops⟩ := startsOver_iff_mayEnd hclosed htable
  obtain ⟨e, -, -, -, hinside⟩ := hflags markedItems.rules[0] (List.mem_cons_self ..)
  obtain ⟨s, hs, hends, -⟩ := hinside 0 _ rfl 0 (by decide)
  refine ⟨hclosed, table, htable, s, hs, hends.mpr ?_, fun t ht hloop => ?_⟩
  · intro d hd
    obtain rfl := List.mem_singleton.mp hd
    exact ⟨rfl, _, rfl, .marked rfl⟩
  · obtain ⟨-, r, hr, -, hrestarts, _, _, _, -, -, hkey⟩ :=
      hloops s (List.mem_of_find?_eq_some hs) t ht hloop
    rw [Table.key_of_find?_eq_some hs, Key.mk.injEq] at hkey
    rwa [eq_of_id_eq (List.mem_cons_self ..) hr hkey.1]

end Grammar

end GrammarEngine
