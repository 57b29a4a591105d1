import GrammarEngine.Proofs.Grammar.Vanishing
import Mathlib.Data.List.Duplicate

/-!
# The paths of a grammar

From a position of a pattern the input can go on in several ways: with the terminal that stands
there, with whatever the rule referred to there begins with, and, if that rule can match nothing,
with whatever comes behind it. `Grammar.Way` says this by induction, and nothing in it keeps a
way from going through the same reference twice. In a grammar with left recursion there are
infinitely many ways.

A table can only be made from ways that pass each reference at most once. What justifies leaving out
the others is that a grammar in which there is one has two short ways on the same token from the
entry of some rule (`Way.exists_short`), so it is refused in any case: go around the cycle until it
leaves towards the terminal for good, once with the last round and once without it.

Main results:

* `Way.follow` — behind a reference a way goes on as a way from the rule referred to.
* `Way.exists_short` — a repeated reference leaves two short ways on the same token.
* `Path.two_of_leftRecursive` — a left-recursive rule that reaches a terminal reaches it
  in two ways.
-/

namespace GrammarEngine

namespace Grammar

variable {α : Type}

-- ---------------------------------------------------------------------------
-- Ways and paths
-- ---------------------------------------------------------------------------

/-- `Way g r pattern index chain target token`: from an element of a pattern of `r` the input
can go on with `token`, which stands at `target`, through the references in `chain`, the
outermost first. -/
inductive Way (g : Grammar α) : Rule α → Nat → Nat → List Key → Key → Descriptor → Prop
  /-- The element is a terminal. -/
  | terminal {r : Rule α} {pattern index : Nat} {p : Pattern α} {d : Descriptor}
      (hp : r.patterns[pattern]? = some p) (hd : p.tokens[index]? = some d)
      (ht : d.isTerminal = true) : Way g r pattern index [] ⟨r.id, some pattern, index⟩ d.normalized
  /-- The element refers to a rule, and the input goes on with that. -/
  | enter {r s : Rule α} {pattern index inner : Nat} {p : Pattern α} {d token : Descriptor}
      {chain : List Key} {target : Key}
      (hp : r.patterns[pattern]? = some p) (hd : p.tokens[index]? = some d)
      (ht : d.isTerminal = false)
      (hs : g.find? d.name = some s) (h : Way g s inner 0 chain target token) :
      Way g r pattern index (⟨r.id, some pattern, index⟩ :: chain) target token
  /-- The element refers to a rule that can match nothing, and the input goes on behind it. -/
  | skip {r s : Rule α} {pattern index : Nat} {p : Pattern α} {d token : Descriptor}
      {chain : List Key} {target : Key}
      (hp : r.patterns[pattern]? = some p) (hd : p.tokens[index]? = some d)
      (ht : d.isTerminal = false) (hs : g.find? d.name = some s) (hv : g.Vanishing s)
      (h : Way g r pattern (index + 1) chain target token) :
      Way g r pattern index chain target token

/-- From a terminal there is one way. -/
theorem way_terminal_iff {g : Grammar α} {r : Rule α} {pattern index : Nat} {p : Pattern α}
    {d token : Descriptor} {chain : List Key} {target : Key} (hp : r.patterns[pattern]? = some p)
    (hd : p.tokens[index]? = some d) (ht : d.isTerminal = true) :
    g.Way r pattern index chain target token ↔
      chain = [] ∧ target = ⟨r.id, some pattern, index⟩ ∧ token = d.normalized := by
  constructor
  · intro h
    cases h with
    | terminal hp' hd' _ =>
      obtain rfl := Option.some.inj (hp.symm.trans hp')
      obtain rfl := Option.some.inj (hd.symm.trans hd')
      exact ⟨rfl, rfl, rfl⟩
    | enter hp' hd' ht' | skip hp' hd' ht' =>
      obtain rfl := Option.some.inj (hp.symm.trans hp')
      obtain rfl := Option.some.inj (hd.symm.trans hd')
      rw [ht] at ht'
      cases ht'
  · rintro ⟨rfl, rfl, rfl⟩
    exact .terminal hp hd ht

/-- From a reference the ways go on with the rule referred to, or pass it by. -/
theorem way_reference_iff {g : Grammar α} {r s : Rule α} {pattern index : Nat} {p : Pattern α}
    {d token : Descriptor} {chain : List Key} {target : Key} (hp : r.patterns[pattern]? = some p)
    (hd : p.tokens[index]? = some d) (ht : d.isTerminal = false) (hs : g.find? d.name = some s) :
    g.Way r pattern index chain target token ↔
      (∃ inner rest,
        chain = ⟨r.id, some pattern, index⟩ :: rest ∧ g.Way s inner 0 rest target token) ∨
      (g.Vanishing s ∧ g.Way r pattern (index + 1) chain target token) := by
  constructor
  · intro h
    cases h with
    | terminal hp' hd' ht' =>
      obtain rfl := Option.some.inj (hp.symm.trans hp')
      obtain rfl := Option.some.inj (hd.symm.trans hd')
      rw [ht] at ht'
      cases ht'
    | enter hp' hd' _ hs' hway =>
      obtain rfl := Option.some.inj (hp.symm.trans hp')
      obtain rfl := Option.some.inj (hd.symm.trans hd')
      obtain rfl := Option.some.inj (hs.symm.trans hs')
      exact .inl ⟨_, _, rfl, hway⟩
    | skip hp' hd' _ hs' hv hway =>
      obtain rfl := Option.some.inj (hp.symm.trans hp')
      obtain rfl := Option.some.inj (hd.symm.trans hd')
      obtain rfl := Option.some.inj (hs.symm.trans hs')
      exact .inr ⟨hv, hway⟩
  · rintro (⟨inner, rest, rfl, hway⟩ | ⟨hv, hway⟩)
    · exact .enter hp hd ht hs hway
    · exact .skip hp hd ht hs hv hway

/-- A state of a grammar: the entry of a rule, or the place behind an element of one of
its patterns. -/
inductive Place (g : Grammar α) : Key → Prop
  | entry {r : Rule α} (hr : r ∈ g.rules) : Place g ⟨r.id, none, 0⟩
  | inside {r : Rule α} {pattern index : Nat} {p : Pattern α} (hr : r ∈ g.rules)
      (hp : r.patterns[pattern]? = some p) (hi : index < p.tokens.length) :
      Place g ⟨r.id, some pattern, index⟩

/-- A place inside a pattern is the place of one element only. -/
theorem eq_of_inside_eq {g : Grammar α} {r r' : Rule α} {pattern pattern' index index' : Nat}
    (hr : r ∈ g.rules) (hr' : r' ∈ g.rules)
    (h : (⟨r.id, some pattern, index⟩ : Key) = ⟨r'.id, some pattern', index'⟩) :
    r = r' ∧ pattern = pattern' ∧ index = index' := by
  rw [Key.mk.injEq, Option.some.injEq] at h
  exact ⟨eq_of_id_eq hr hr' h.1, h.2⟩

/-- A state may end its pattern: all elements behind it can be passed over. The entry of a rule may
if the rule can match nothing. -/
inductive Ending (g : Grammar α) : Key → Prop
  | entry {r : Rule α} (hr : r ∈ g.rules) (hv : g.Vanishing r) : Ending g ⟨r.id, none, 0⟩
  | inside {r : Rule α} {pattern index : Nat} {p : Pattern α} (hr : r ∈ g.rules)
      (hp : r.patterns[pattern]? = some p) (hi : index < p.tokens.length)
      (hrest : ∀ d ∈ p.tokens.drop (index + 1), g.Skippable d) :
      Ending g ⟨r.id, some pattern, index⟩

/-- A path from a state: its token, where that stands, and the references on the way. A path that
loops back starts the rule of the state over. -/
inductive Path (g : Grammar α) : Key → Transition → Prop
  /-- From the entry of a rule into one of its patterns. -/
  | entry {r : Rule α} {pattern : Nat} {chain : List Key} {target : Key} {token : Descriptor}
      (hr : r ∈ g.rules) (h : g.Way r pattern 0 chain target token) :
      Path g ⟨r.id, none, 0⟩ ⟨token, target, chain, false⟩
  /-- On to the next element of the pattern. -/
  | onward {r : Rule α} {pattern index : Nat} {chain : List Key} {target : Key} {token : Descriptor}
      (hr : r ∈ g.rules) (h : g.Way r pattern (index + 1) chain target token) :
      Path g ⟨r.id, some pattern, index⟩ ⟨token, target, chain, false⟩
  /-- From a place where the pattern may end into a pattern of the same rule, if that repeats. -/
  | again {r : Rule α} {pattern other index : Nat} {p : Pattern α} {chain : List Key} {target : Key}
      {token : Descriptor} (hr : r ∈ g.rules) (hp : r.patterns[pattern]? = some p)
      (hi : index < p.tokens.length) (hrepeat : r.repeatable = true)
      (hrest : ∀ d ∈ p.tokens.drop (index + 1), g.Skippable d)
      (h : g.Way r other 0 chain target token) :
      Path g ⟨r.id, some pattern, index⟩ ⟨token, target, chain, true⟩

/-- The paths from the entry of a rule. -/
theorem path_entry_iff {g : Grammar α} {r : Rule α} (hr : r ∈ g.rules) {t : Transition} :
    g.Path ⟨r.id, none, 0⟩ t ↔ ∃ pattern chain target token, t = ⟨token, target, chain, false⟩ ∧
      g.Way r pattern 0 chain target token := by
  constructor
  · intro h
    generalize hk : (⟨r.id, none, 0⟩ : Key) = k at h
    cases h with
    | entry hr' hway =>
      rw [Key.mk.injEq] at hk
      obtain rfl := eq_of_id_eq hr hr' hk.1
      exact ⟨_, _, _, _, rfl, hway⟩
    | onward | again => simp at hk
  · rintro ⟨pattern, chain, target, token, rfl, hway⟩
    exact .entry hr hway

/-- The paths from a place inside a pattern: those on to the next element, and those
that loop back. -/
theorem path_inside_iff {g : Grammar α} {r : Rule α} (hr : r ∈ g.rules) {pattern index : Nat}
    {p : Pattern α}
    (hp : r.patterns[pattern]? = some p) (hi : index < p.tokens.length) {t : Transition} :
    g.Path ⟨r.id, some pattern, index⟩ t ↔
      (∃ chain target token, t = ⟨token, target, chain, false⟩ ∧
        g.Way r pattern (index + 1) chain target token) ∨
      (r.repeatable = true ∧ (∀ d ∈ p.tokens.drop (index + 1), g.Skippable d) ∧
        ∃ other chain target token, t = ⟨token, target, chain, true⟩ ∧
          g.Way r other 0 chain target token) := by
  constructor
  · intro h
    generalize hk : (⟨r.id, some pattern, index⟩ : Key) = k at h
    cases h with
    | entry => simp at hk
    | onward hr' hway =>
      obtain ⟨rfl, rfl, rfl⟩ := eq_of_inside_eq hr hr' hk
      exact .inl ⟨_, _, _, rfl, hway⟩
    | again hr' hp' _ hrepeat hrest hway =>
      obtain ⟨rfl, rfl, rfl⟩ := eq_of_inside_eq hr hr' hk
      rw [hp] at hp'
      cases hp'
      exact .inr ⟨hrepeat, hrest, _, _, _, _, rfl, hway⟩
  · rintro (⟨chain, target, token, rfl, hway⟩ |
      ⟨hrepeat, hrest, other, chain, target, token, rfl, hway⟩)
    · exact .onward hr hway
    · exact .again hr hp hi hrepeat hrest hway

/-- A path that loops back leaves a place where the pattern may end, and starts the rule over. -/
theorem Path.of_loopBack {g : Grammar α} {k : Key} {t : Transition} (h : g.Path k t)
    (hloop : t.loopBack = true) :
    g.Ending k ∧ ∃ r ∈ g.rules, r.id = k.rule ∧ r.repeatable = true ∧
      ∃ pattern, g.Way r pattern 0 t.skipped t.target t.token := by
  cases h with
  | entry => cases hloop
  | onward => cases hloop
  | again hr hp hi hrepeat hrest hway =>
    exact ⟨.inside hr hp hi hrest, _, hr, rfl, hrepeat, _, hway⟩

/-- A path that does not loop back goes on in the pattern. -/
theorem Path.of_not_loopBack {g : Grammar α} {r : Rule α} (hr : r ∈ g.rules) {pattern index : Nat}
    {t : Transition} (h : g.Path ⟨r.id, some pattern, index⟩ t) (hloop : t.loopBack = false) :
    g.Way r pattern (index + 1) t.skipped t.target t.token := by
  generalize hk : (⟨r.id, some pattern, index⟩ : Key) = k at h
  cases h with
  | entry =>
    rw [Key.mk.injEq] at hk
    cases hk.2.1
  | again => cases hloop
  | onward hr' hway =>
    obtain ⟨rfl, rfl, rfl⟩ := eq_of_inside_eq hr hr' hk
    exact hway

theorem ending_entry_iff {g : Grammar α} {r : Rule α} (hr : r ∈ g.rules) :
    g.Ending ⟨r.id, none, 0⟩ ↔ g.Vanishing r := by
  constructor
  · intro h
    generalize hk : (⟨r.id, none, 0⟩ : Key) = k at h
    cases h with
    | entry hr' hv =>
      rw [Key.mk.injEq] at hk
      obtain rfl := eq_of_id_eq hr hr' hk.1
      exact hv
    | inside => simp at hk
  · exact fun hv => .entry hr hv

theorem ending_inside_iff {g : Grammar α} {r : Rule α} (hr : r ∈ g.rules) {pattern index : Nat}
    {p : Pattern α} (hp : r.patterns[pattern]? = some p) (hi : index < p.tokens.length) :
    g.Ending ⟨r.id, some pattern, index⟩ ↔ ∀ d ∈ p.tokens.drop (index + 1), g.Skippable d := by
  constructor
  · intro h
    generalize hk : (⟨r.id, some pattern, index⟩ : Key) = k at h
    cases h with
    | entry => simp at hk
    | inside hr' hp' _ hrest =>
      obtain ⟨rfl, rfl, rfl⟩ := eq_of_inside_eq hr hr' hk
      rw [hp] at hp'
      cases hp'
      exact hrest
  · exact fun hrest => .inside hr hp hi hrest

-- ---------------------------------------------------------------------------
-- References along a way
-- ---------------------------------------------------------------------------

/-- The element at a key refers to a rule. -/
def Refers (g : Grammar α) (k : Key) (s : Rule α) : Prop :=
  ∃ r ∈ g.rules, ∃ (pattern index : Nat) (p : Pattern α) (d : Descriptor),
    k = ⟨r.id, some pattern, index⟩ ∧ r.patterns[pattern]? = some p ∧ p.tokens[index]? = some d ∧
      d.isTerminal = false ∧ g.find? d.name = some s

theorem Refers.mem {g : Grammar α} {k : Key} {s : Rule α} (h : g.Refers k s) : s ∈ g.rules := by
  obtain ⟨_, _, _, _, _, _, _, _, _, _, hs⟩ := h
  exact mem_of_find?_eq_some hs

/-- A key refers to one rule only. -/
theorem Refers.unique {g : Grammar α} {k : Key} {s t : Rule α} (hs : g.Refers k s)
    (ht : g.Refers k t) : s = t := by
  obtain ⟨r, hr, pattern, index, p, d, rfl, hp, hd, -, hs⟩ := hs
  obtain ⟨r', hr', pattern', index', p', d', hk, hp', hd', -, ht⟩ := ht
  obtain ⟨rfl, rfl, rfl⟩ := eq_of_inside_eq hr hr' hk
  rw [hp] at hp'
  cases hp'
  rw [hd] at hd'
  cases hd'
  rw [hs] at ht
  exact Option.some.inj ht

/-- Behind a reference a way goes on as a way from the rule referred to. -/
theorem Way.follow {g : Grammar α} {r : Rule α} {pattern index : Nat} {before after : List Key}
    {k target : Key} {token : Descriptor} (hr : r ∈ g.rules)
    (h : g.Way r pattern index (before ++ k :: after) target token) :
    ∃ s, g.Refers k s ∧ ∃ inner, g.Way s inner 0 after target token := by
  generalize hchain : before ++ k :: after = chain at h
  induction h generalizing before with
  | terminal => simp at hchain
  | @enter r s pattern index inner p d _ _ _ hp hd ht hs h ih =>
    rcases before with _ | ⟨first, before⟩
    · rw [List.nil_append, List.cons.injEq] at hchain
      obtain ⟨rfl, rfl⟩ := hchain
      exact ⟨s, ⟨r, hr, pattern, index, p, d, rfl, hp, hd, ht, hs⟩, inner, h⟩
    · rw [List.cons_append, List.cons.injEq] at hchain
      exact ih (mem_of_find?_eq_some hs) hchain.2
  | skip _ _ _ _ _ _ ih => exact ih hr hchain

/-- A way passes states of the grammar. -/
theorem Way.place {g : Grammar α} {r : Rule α} {pattern index : Nat} {chain : List Key}
    {target : Key} {token : Descriptor}
    (hr : r ∈ g.rules) (h : g.Way r pattern index chain target token) {k : Key}
    (hk : k ∈ chain ++ [target]) : g.Place k := by
  induction h with
  | terminal hp hd =>
    rw [List.nil_append, List.mem_singleton] at hk
    rw [hk]
    exact .inside hr hp (List.getElem?_eq_some_iff.mp hd).1
  | enter hp hd _ hs _ ih =>
    rcases List.mem_cons.mp hk with rfl | hk
    · exact .inside hr hp (List.getElem?_eq_some_iff.mp hd).1
    · exact ih (mem_of_find?_eq_some hs) hk
  | skip _ _ _ _ _ _ ih => exact ih hr hk

/-- A way passes first a place of its own pattern, at or behind the one where it starts. -/
theorem Way.route_head {g : Grammar α} {r : Rule α} {pattern index : Nat} {chain : List Key}
    {target : Key} {token : Descriptor} (h : g.Way r pattern index chain target token) :
    ∃ first rest, index ≤ first ∧ chain ++ [target] = ⟨r.id, some pattern, first⟩ :: rest := by
  induction h with
  | @terminal _ _ index => exact ⟨index, [], Nat.le_refl _, rfl⟩
  | @enter _ _ _ index _ _ _ _ chain target => exact ⟨index, chain ++ [target], Nat.le_refl _, rfl⟩
  | skip _ _ _ _ _ _ ih =>
    obtain ⟨first, rest, hle, hroute⟩ := ih
    exact ⟨first, rest, by omega, hroute⟩

/-- A way starts at an element of a pattern. -/
theorem Way.exists_element {g : Grammar α} {r : Rule α} {pattern index : Nat} {chain : List Key}
    {target : Key} {token : Descriptor} (h : g.Way r pattern index chain target token) :
    ∃ p, r.patterns[pattern]? = some p ∧ index < p.tokens.length := by
  cases h with
  | terminal hp hd | enter hp hd | skip hp hd =>
    exact ⟨_, hp, (List.getElem?_eq_some_iff.mp hd).1⟩

theorem Way.index_lt {g : Grammar α} {r : Rule α} {pattern index : Nat} {p : Pattern α}
    {chain : List Key} {target : Key} {token : Descriptor}
    (h : g.Way r pattern index chain target token) (hp : r.patterns[pattern]? = some p) :
    index < p.tokens.length := by
  obtain ⟨p', hp', hlt⟩ := h.exists_element
  rw [hp] at hp'
  cases hp'
  exact hlt

/-- A way passes over some elements, and then goes on with a terminal or through a reference. -/
theorem Way.exists_next {g : Grammar α} {r : Rule α} {pattern index : Nat} {p : Pattern α}
    {chain : List Key} {target : Key} {token : Descriptor}
    (h : g.Way r pattern index chain target token) (hp : r.patterns[pattern]? = some p) :
    ∃ next d, index ≤ next ∧ p.tokens[next]? = some d ∧
      (∀ d' ∈ (p.tokens.take next).drop index, g.Skippable d') ∧
      ((d.isTerminal = true ∧ chain = [] ∧ target = ⟨r.id, some pattern, next⟩ ∧
        token = d.normalized) ∨ ∃ s inner rest, d.isTerminal = false ∧ g.find? d.name = some s ∧
          chain = ⟨r.id, some pattern, next⟩ :: rest ∧ g.Way s inner 0 rest target token) := by
  induction h with
  | @terminal _ _ index _ d hp' hd ht =>
    rw [hp] at hp'
    cases hp'
    refine ⟨index, d, Nat.le_refl _, hd, ?_, .inl ⟨ht, rfl, rfl, rfl⟩⟩
    rw [List.drop_eq_nil_of_le (by rw [List.length_take]; omega)]
    exact fun _ h => nomatch h
  | @enter _ s _ index inner _ d _ chain _ hp' hd ht hs hway =>
    rw [hp] at hp'
    cases hp'
    refine ⟨index, d, Nat.le_refl _, hd, ?_, .inr ⟨s, inner, chain, ht, hs, rfl, hway⟩⟩
    rw [List.drop_eq_nil_of_le (by rw [List.length_take]; omega)]
    exact fun _ h => nomatch h
  | @skip _ s _ index _ d _ _ _ hp' hd ht hs hv _ ih =>
    obtain ⟨next, d', hle, hnext, hpass, hway⟩ := ih hp
    rw [hp] at hp'
    cases hp'
    refine ⟨next, d', by omega, hnext, ?_, hway⟩
    have hget : (p.tokens.take next)[index]? = some d := by
      rw [List.getElem?_take_of_lt (by omega), hd]
    rw [List.drop_eq_getElem?_toList_append, hget]
    intro x hx
    rcases List.mem_cons.mp hx with rfl | hx
    · exact ⟨ht, s, hs, hv⟩
    · exact hpass x hx

/-- A way through no reference leads to a terminal of its pattern. -/
theorem Way.of_nil {g : Grammar α} {r : Rule α} {pattern index : Nat} {target : Key}
    {token : Descriptor} (h : g.Way r pattern index [] target token) :
    ∃ p next d, r.patterns[pattern]? = some p ∧ p.tokens[next]? = some d ∧
      (∀ d' ∈ (p.tokens.take next).drop index, g.Skippable d') ∧ d.isTerminal = true ∧
      target = ⟨r.id, some pattern, next⟩ ∧ token = d.normalized := by
  obtain ⟨p, hp, -⟩ := h.exists_element
  obtain ⟨next, d, -, hd, hpass, ⟨ht, -, htarget, htoken⟩ | ⟨_, _, _, _, _, hcons, _⟩⟩ :=
    h.exists_next hp
  · exact ⟨p, next, d, hp, hd, hpass, ht, htarget, htoken⟩
  · cases hcons

/-- Any other way goes into the rule of its first reference. -/
theorem Way.of_cons {g : Grammar α} {r : Rule α} {pattern index : Nat} {k : Key} {chain : List Key}
    {target : Key} {token : Descriptor} (h : g.Way r pattern index (k :: chain) target token) :
    ∃ p next d s inner, r.patterns[pattern]? = some p ∧ p.tokens[next]? = some d ∧
      (∀ d' ∈ (p.tokens.take next).drop index, g.Skippable d') ∧ d.isTerminal = false ∧
      g.find? d.name = some s ∧ k = ⟨r.id, some pattern, next⟩ ∧
      g.Way s inner 0 chain target token := by
  obtain ⟨p, hp, -⟩ := h.exists_element
  obtain ⟨next, d, -, hd, hpass, ⟨_, hnil, _, _⟩ | ⟨s, inner, _, ht, hs, hcons, hway⟩⟩ :=
    h.exists_next hp
  · cases hnil
  · obtain ⟨rfl, rfl⟩ := List.cons.inj hcons
    exact ⟨p, next, d, s, inner, hp, hd, hpass, ht, hs, rfl, hway⟩

-- ---------------------------------------------------------------------------
-- Cutting cycles
-- ---------------------------------------------------------------------------

/-- A row with a repeated item is split by it. -/
theorem exists_repeated {κ : Type} {row : List κ} (h : ¬ row.Nodup) :
    ∃ x before between after, row = before ++ x :: (between ++ x :: after) := by
  obtain ⟨x, hx⟩ := List.exists_duplicate_iff_not_nodup.mpr h
  obtain ⟨front, back, rfl, hfront, hback⟩ :=
    List.cons_sublist_iff.mp (List.duplicate_iff_sublist.mp hx)
  obtain ⟨before, between₁, rfl⟩ := List.append_of_mem hfront
  obtain ⟨between₂, after, rfl⟩ := List.append_of_mem (List.singleton_sublist.mp hback)
  exact ⟨x, before, between₁ ++ between₂, after, by simp⟩

/-- Two different ways without repetition from the entry of a rule on the same token. -/
def Forks (g : Grammar α) (target : Key) (token : Descriptor) : Prop :=
  ∃ s ∈ g.rules, ∃ pattern pattern' chain chain', g.Way s pattern 0 chain target token ∧
    g.Way s pattern' 0 chain' target token ∧ chain.Nodup ∧ chain'.Nodup ∧ chain ≠ chain'

/--
**Cycles can be cut.** A way through some reference twice leaves two ways without repetition on the
same token, from the entry of one rule: let the way be shortest, so that what lies behind the first
of two equal references repeats nothing. It is then one of the two, and what lies behind the second
is the other one.
-/
theorem Way.exists_short {g : Grammar α} {r : Rule α} {pattern index : Nat} {chain : List Key}
    {target : Key} {token : Descriptor} (hr : r ∈ g.rules)
    (h : g.Way r pattern index chain target token) (hrepeated : ¬ chain.Nodup) :
    g.Forks target token := by
  induction hlen : chain.length using Nat.strongRecOn generalizing r pattern index chain with
  | _ n ih =>
    obtain ⟨k, before, between, after, rfl⟩ := exists_repeated hrepeated
    obtain ⟨s, hs, inner, hlong⟩ := h.follow hr
    by_cases hnodup : (between ++ k :: after).Nodup
    · obtain ⟨s', hs', inner', hshort⟩ := hlong.follow hs.mem
      obtain rfl := hs.unique hs'
      have hafter : after.Nodup := (List.nodup_cons.mp (List.nodup_append.mp hnodup).2.1).2
      refine ⟨s, hs.mem, inner, inner', _, _, hlong, hshort, hnodup, hafter, ?_⟩
      intro heq
      have := congrArg List.length heq
      rw [List.length_append, List.length_cons] at this
      omega
    · refine ih _ ?_ hs.mem hlong hnodup rfl
      simp only [List.length_append, List.length_cons] at hlen ⊢
      omega

-- ---------------------------------------------------------------------------
-- Left recursion
-- ---------------------------------------------------------------------------

/-- A pattern of a rule can begin with another rule: only elements that can be passed over stand in
front of the reference. -/
def BeginsWith (g : Grammar α) (r s : Rule α) : Prop :=
  ∃ (pattern index : Nat) (p : Pattern α) (d : Descriptor), r.patterns[pattern]? = some p ∧
    p.tokens[index]? = some d ∧ d.isTerminal = false ∧ g.find? d.name = some s ∧
      ∀ d' ∈ p.tokens.take index, g.Skippable d'

/-- A rule can begin with itself, directly or through other rules. -/
def LeftRecursive (g : Grammar α) (r : Rule α) : Prop := Relation.TransGen g.BeginsWith r r

/-- A way from an element is a way from one in front of it, if what stands between can
be passed over. -/
theorem Way.over {g : Grammar α} {r : Rule α} {pattern index count : Nat} {p : Pattern α}
    {chain : List Key} {target : Key} {token : Descriptor} (hp : r.patterns[pattern]? = some p)
    (hskip : ∀ d ∈ (p.tokens.drop index).take count, g.Skippable d)
    (h : g.Way r pattern (index + count) chain target token) :
    g.Way r pattern index chain target token := by
  induction count generalizing index with
  | zero => exact h
  | succ count ih =>
    have hlt : index < p.tokens.length := by
      have := h.index_lt hp
      omega
    rw [List.drop_eq_getElem_cons hlt, List.take_succ_cons] at hskip
    obtain ⟨ht, s, hs, hv⟩ := hskip _ (List.mem_cons_self ..)
    refine .skip hp (List.getElem?_eq_getElem hlt) ht hs hv (ih (fun d hd => ?_) ?_)
    · exact hskip d (List.mem_cons_of_mem _ hd)
    · rw [Nat.add_assoc, Nat.add_comm 1 count]
      exact h

/-- A way from an element is a way from the start of its pattern, if what stands between can
be passed over. -/
theorem Way.from_start {g : Grammar α} {r : Rule α} {pattern index : Nat} {p : Pattern α}
    {chain : List Key} {target : Key} {token : Descriptor} (hp : r.patterns[pattern]? = some p)
    (hskip : ∀ d ∈ p.tokens.take index, g.Skippable d)
    (h : g.Way r pattern index chain target token) : g.Way r pattern 0 chain target token :=
  .over hp hskip (by rw [Nat.zero_add]; exact h)

theorem Way.of_beginsWith {g : Grammar α} {r s : Rule α} {inner : Nat} {chain : List Key}
    {target : Key} {token : Descriptor} (hrs : g.BeginsWith r s)
    (h : g.Way s inner 0 chain target token) :
    ∃ pattern k, g.Way r pattern 0 (k :: chain) target token := by
  obtain ⟨pattern, index, p, d, hp, hd, ht, hs, hskip⟩ := hrs
  exact ⟨pattern, _, (Way.enter hp hd ht hs h).from_start hp hskip⟩

theorem Way.of_transGen {g : Grammar α} {r s : Rule α} {inner : Nat} {chain : List Key}
    {target : Key} {token : Descriptor} (hrs : Relation.TransGen g.BeginsWith r s)
    (h : g.Way s inner 0 chain target token) :
    ∃ pattern k before, g.Way r pattern 0 (k :: (before ++ chain)) target token := by
  induction hrs using Relation.TransGen.head_induction_on with
  | single hfirst =>
    obtain ⟨pattern, k, hway⟩ := h.of_beginsWith hfirst
    exact ⟨pattern, k, [], hway⟩
  | head hfirst _ ih =>
    obtain ⟨pattern, k, before, hway⟩ := ih
    obtain ⟨pattern', k', hway'⟩ := hway.of_beginsWith hfirst
    exact ⟨pattern', k', k :: before, hway'⟩

/-- What a left-recursive rule begins with it begins with in two ways. -/
theorem Path.two_of_leftRecursive {g : Grammar α} {r : Rule α} {t : Transition} (hr : r ∈ g.rules)
    (hrec : g.LeftRecursive r) (h : g.Path ⟨r.id, none, 0⟩ t) :
    ∃ t', g.Path ⟨r.id, none, 0⟩ t' ∧ t ≠ t' ∧ t.token = t'.token := by
  obtain ⟨pattern, chain, target, token, rfl, hway⟩ := (path_entry_iff hr).mp h
  obtain ⟨pattern', k, before, hway'⟩ := Way.of_transGen hrec hway
  refine ⟨_, .entry hr hway', ?_, rfl⟩
  intro heq
  have := congrArg (fun t : Transition => t.skipped.length) heq
  simp only [List.length_cons, List.length_append] at this
  omega

end Grammar

end GrammarEngine
