import GrammarEngine.Proofs.Grammar.Exactness
import Mathlib.Logic.Equiv.Basic

/-!
# The order of declarations

A pattern is known by its rule and by its index there, so when the patterns of a rule are
declared in another order they get other indices. `Grammar.Reordered` says that two grammars have
the same rules up to such a move, and up to the order of the rules themselves; the `Shuffle` says
where each pattern went.

What a grammar means does not speak of any order: which rules can match nothing, which states there
are, where a pattern may end, and which paths lead from a state to a token all go along with the
move. A table is exact, so the order is lost in it as well, though the memo is filled, the patterns
are walked and a conflict is met in another order.

Main results:

* `Grammar.exists_shuffle` — whatever the new order of rules and patterns is, there is a
  shuffle for it.
* `Reordered.path` — the paths of a state go along.
* `compile_reordered` — both grammars are refused, or their tables are the same up to the move.
-/

namespace GrammarEngine

-- ---------------------------------------------------------------------------
-- Moving patterns
-- ---------------------------------------------------------------------------

/-- Where the patterns of each rule are moved: from an index to another one. -/
abbrev Shuffle := RuleId → Equiv.Perm Nat

/-- The way back. -/
def Shuffle.back (σ : Shuffle) : Shuffle := fun id => (σ id).symm

/-- The same state, after its pattern was moved. -/
def Key.shuffled (σ : Shuffle) (k : Key) : Key := { k with pattern := k.pattern.map (σ k.rule) }

/-- The same transition, after all patterns were moved. -/
def Transition.shuffled (σ : Shuffle) (t : Transition) : Transition :=
  { t with target := t.target.shuffled σ, skipped := t.skipped.map (Key.shuffled σ) }

@[simp] theorem Key.shuffled_entry (σ : Shuffle) (id : RuleId) (index : Nat) :
    Key.shuffled σ ⟨id, none, index⟩ = ⟨id, none, index⟩ := rfl

@[simp] theorem Key.shuffled_inside (σ : Shuffle) (id : RuleId) (pattern index : Nat) :
    Key.shuffled σ ⟨id, some pattern, index⟩ = ⟨id, some (σ id pattern), index⟩ := rfl

/-- The way back undoes a move. -/
@[simp] theorem Key.shuffled_back (σ : Shuffle) (k : Key) : (k.shuffled σ).shuffled σ.back = k := by
  obtain ⟨id, _ | pattern, index⟩ := k <;> simp [Shuffle.back]

@[simp] theorem Key.back_shuffled (σ : Shuffle) (k : Key) : (k.shuffled σ.back).shuffled σ = k :=
  k.shuffled_back σ.back

/-- So it does for transitions. -/
@[simp] theorem Transition.shuffled_back (σ : Shuffle) (t : Transition) :
    (t.shuffled σ).shuffled σ.back = t := by
  simp [Transition.shuffled, Function.comp_def]

@[simp] theorem Transition.back_shuffled (σ : Shuffle) (t : Transition) :
    (t.shuffled σ.back).shuffled σ = t :=
  t.shuffled_back σ.back

/-- No two transitions become the same. -/
theorem Transition.shuffled_injective (σ : Shuffle) : Function.Injective (Transition.shuffled σ) :=
  Function.LeftInverse.injective (Transition.shuffled_back σ)

variable {α : Type}

/-- The same rule with its patterns moved. -/
structure Rule.Shuffled (place : Equiv.Perm Nat) (r r' : Rule α) : Prop where
  id : r'.id = r.id
  markedOptional : r'.markedOptional = r.markedOptional
  repeatable : r'.repeatable = r.repeatable
  patterns : ∀ index, r'.patterns[place index]? = r.patterns[index]?

section Shuffled

variable {place : Equiv.Perm Nat} {σ : Shuffle} {r r' : Rule α}

theorem Rule.Shuffled.symm (h : r.Shuffled place r') : r'.Shuffled place.symm r where
  id := h.id.symm
  markedOptional := h.markedOptional.symm
  repeatable := h.repeatable.symm
  patterns index := by rw [← h.patterns, Equiv.apply_symm_apply]

/-- A pattern is found again where it was moved to. -/
theorem Rule.Shuffled.getElem? (h : r.Shuffled place r') {index : Nat} {p : Pattern α}
    (hp : r.patterns[index]? = some p) : r'.patterns[place index]? = some p :=
  (h.patterns index).trans hp

/-- No pattern comes in by a move. -/
theorem Rule.Shuffled.mem_patterns (h : r.Shuffled place r') {p : Pattern α}
    (hp : p ∈ r'.patterns) : p ∈ r.patterns := by
  obtain ⟨index, hindex⟩ := List.mem_iff_getElem?.mp hp
  exact List.mem_of_getElem? (h.symm.getElem? hindex)

/-- The state in front of a rule stays where it is. -/
theorem Rule.Shuffled.entry (h : r.Shuffled place r') :
    Key.shuffled σ ⟨r.id, none, 0⟩ = ⟨r'.id, none, 0⟩ := by
  rw [h.id, Key.shuffled_entry]

/-- A state inside a pattern goes where the pattern goes. -/
theorem Rule.Shuffled.inside (h : r.Shuffled (σ r.id) r') (pattern index : Nat) :
    Key.shuffled σ ⟨r.id, some pattern, index⟩ = ⟨r'.id, some (σ r.id pattern), index⟩ := by
  rw [h.id, Key.shuffled_inside]

end Shuffled

namespace Grammar

/-- The same rules, in any order, each with its patterns moved. -/
structure Reordered (σ : Shuffle) (g g' : Grammar α) : Prop where
  forth : ∀ r ∈ g.rules, ∃ r' ∈ g'.rules, r.Shuffled (σ r.id) r'
  back : ∀ r' ∈ g'.rules, ∃ r ∈ g.rules, r.Shuffled (σ r.id) r'

-- ---------------------------------------------------------------------------
-- Every order is a shuffle
-- ---------------------------------------------------------------------------

/-- Moves all indices but the first. -/
private def behindFirst (place : Equiv.Perm Nat) : Equiv.Perm Nat where
  toFun
    | 0 => 0
    | index + 1 => place index + 1
  invFun
    | 0 => 0
    | index + 1 => place.symm index + 1
  left_inv index := by cases index <;> simp
  right_inv index := by cases index <;> simp

/-- Swapping the first two of a row is moving them. -/
private theorem getElem?_swap {κ : Type} (x y : κ) (rest : List κ) (index : Nat) :
    (y :: x :: rest)[Equiv.swap 0 1 index]? = (x :: y :: rest)[index]? := by
  match index with
  | 0 => simp
  | 1 => simp
  | index + 2 => simp [Equiv.swap_apply_of_ne_of_ne]

/-- A row in another order is a row that was moved. -/
theorem exists_place {κ : Type} {row row' : List κ} (h : row.Perm row') :
    ∃ place : Equiv.Perm Nat, ∀ index, row'[place index]? = row[index]? := by
  induction h with
  | nil => exact ⟨Equiv.refl _, fun _ => rfl⟩
  | cons x _ ih =>
    obtain ⟨place, hplace⟩ := ih
    refine ⟨behindFirst place, fun index => ?_⟩
    cases index with
    | zero => rfl
    | succ index => exact hplace index
  | swap x y rest => exact ⟨Equiv.swap 0 1, getElem?_swap y x rest⟩
  | trans _ _ ih ih' =>
    obtain ⟨place, hplace⟩ := ih
    obtain ⟨place', hplace'⟩ := ih'
    exact ⟨place.trans place', fun index => (hplace' _).trans (hplace index)⟩

/-- Whatever the new order of the rules, and of the patterns in each of them, there is a
shuffle for it. -/
theorem exists_shuffle {g g' : Grammar α} (patterns : Rule α → List (Pattern α))
    (hpatterns : ∀ r ∈ g.rules, r.patterns.Perm (patterns r))
    (hrules : (g.rules.map fun r => { r with patterns := patterns r }).Perm g'.rules) :
    ∃ σ, g.Reordered σ g' := by
  have hplace : ∀ id, ∃ place : Equiv.Perm Nat, ∀ r ∈ g.rules, r.id = id →
      ∀ index, (patterns r)[place index]? = r.patterns[index]? := by
    intro id
    by_cases hid : ∃ r ∈ g.rules, r.id = id
    · obtain ⟨r, hr, rfl⟩ := hid
      obtain ⟨place, hplace⟩ := exists_place (hpatterns r hr)
      refine ⟨place, fun s hs hsame => ?_⟩
      obtain rfl := eq_of_id_eq hs hr hsame
      exact hplace
    · exact ⟨Equiv.refl _, fun r hr heq => absurd ⟨r, hr, heq⟩ hid⟩
  choose σ hσ using hplace
  have hmoved : ∀ r ∈ g.rules, r.Shuffled (σ r.id) { r with patterns := patterns r } :=
    fun r hr => ⟨rfl, rfl, rfl, hσ r.id r hr rfl⟩
  refine ⟨σ, fun r hr => ?_, fun r' hr' => ?_⟩
  · exact ⟨_, hrules.subset (List.mem_map_of_mem hr), hmoved r hr⟩
  · obtain ⟨r, hr, rfl⟩ := List.mem_map.mp (hrules.symm.subset hr')
    exact ⟨r, hr, hmoved r hr⟩

-- ---------------------------------------------------------------------------
-- What goes along with the move
-- ---------------------------------------------------------------------------

section Along

variable {σ : Shuffle} {g g' : Grammar α}

theorem Reordered.symm (h : g.Reordered σ g') : g'.Reordered σ.back g where
  forth r' hr' := by
    obtain ⟨r, hr, hmoved⟩ := h.back r' hr'
    refine ⟨r, hr, ?_⟩
    rw [hmoved.id]
    exact hmoved.symm
  back r hr := by
    obtain ⟨r', hr', hmoved⟩ := h.forth r hr
    refine ⟨r', hr', ?_⟩
    rw [hmoved.id]
    exact hmoved.symm

/-- A reference names the same rule. -/
theorem Reordered.find? (h : g.Reordered σ g') {name : String} {s : Rule α}
    (hs : g.find? name = some s) : ∃ s', g'.find? name = some s' ∧ s.Shuffled (σ s.id) s' := by
  obtain ⟨s', hs', hmoved⟩ := h.forth s (mem_of_find?_eq_some hs)
  have hname : s'.name = name := (congrArg RuleId.name hmoved.id).trans (name_of_find?_eq_some hs)
  exact ⟨s', hname ▸ find?_of_mem hs', hmoved⟩

/-- References name the same rules, so none is missing. -/
theorem Reordered.closed (h : g.Reordered σ g') (hg : g.Closed) : g'.Closed := by
  intro r' hr' p hp d hd ht
  obtain ⟨r, hr, hmoved⟩ := h.back r' hr'
  obtain ⟨s, hs⟩ := hg r hr p (hmoved.mem_patterns hp) d hd ht
  obtain ⟨s', hs', -⟩ := h.find? hs
  exact ⟨s', hs'⟩

/-- A rule that can match nothing still can. -/
theorem Reordered.vanishing (h : g.Reordered σ g') {place : Equiv.Perm Nat} {r r' : Rule α}
    (hmoved : r.Shuffled place r') (hv : g.Vanishing r) : g'.Vanishing r' := by
  induction hv generalizing place r' with
  | marked hmarked => exact .marked (hmoved.markedOptional.trans hmarked)
  | patterns href _ ih =>
    refine .patterns (fun p hp d hd => ?_) fun p hp d hd s' hs' => ?_
    · obtain ⟨ht, s, hs⟩ := href p (hmoved.mem_patterns hp) d hd
      obtain ⟨s', hs', -⟩ := h.find? hs
      exact ⟨ht, s', hs'⟩
    · obtain ⟨s, hs, hback⟩ := h.symm.find? hs'
      exact ih p (hmoved.mem_patterns hp) d hd s hs hback.symm

/-- So an element that may be passed over still may. -/
theorem Reordered.skippable (h : g.Reordered σ g') {d : Descriptor}
    (hd : g.Skippable d) : g'.Skippable d := by
  obtain ⟨ht, s, hs, hv⟩ := hd
  obtain ⟨s', hs', hmoved⟩ := h.find? hs
  exact ⟨ht, s', hs', h.vanishing hmoved hv⟩

/-- The states are those there were, moved. -/
theorem Reordered.place (h : g.Reordered σ g') {k : Key} (hk : g.Place k) :
    g'.Place (k.shuffled σ) := by
  cases hk with
  | entry hr =>
    obtain ⟨r', hr', hmoved⟩ := h.forth _ hr
    rw [hmoved.entry]
    exact .entry hr'
  | inside hr hp hi =>
    obtain ⟨r', hr', hmoved⟩ := h.forth _ hr
    rw [hmoved.inside]
    exact .inside hr' (hmoved.getElem? hp) hi

/-- Where a pattern may end, the moved pattern may. -/
theorem Reordered.ending (h : g.Reordered σ g') {k : Key} (hk : g.Ending k) :
    g'.Ending (k.shuffled σ) := by
  cases hk with
  | entry hr hv =>
    obtain ⟨r', hr', hmoved⟩ := h.forth _ hr
    rw [hmoved.entry]
    exact .entry hr' (h.vanishing hmoved hv)
  | inside hr hp hi hrest =>
    obtain ⟨r', hr', hmoved⟩ := h.forth _ hr
    rw [hmoved.inside]
    exact .inside hr' (hmoved.getElem? hp) hi fun d hd => h.skippable (hrest d hd)

/-- **Ways go along with the move**, step by step. -/
theorem Reordered.way (h : g.Reordered σ g') {r r' : Rule α} (hmoved : r.Shuffled (σ r.id) r')
    {pattern index : Nat} {chain : List Key} {target : Key} {token : Descriptor}
    (hway : g.Way r pattern index chain target token) :
    g'.Way r' (σ r.id pattern) index (chain.map (Key.shuffled σ)) (target.shuffled σ) token := by
  induction hway generalizing r' with
  | terminal hp hd ht =>
    rw [hmoved.inside]
    exact .terminal (hmoved.getElem? hp) hd ht
  | enter hp hd ht hs _ ih =>
    obtain ⟨s', hs', hmoved'⟩ := h.find? hs
    rw [List.map_cons, hmoved.inside]
    exact .enter (hmoved.getElem? hp) hd ht hs' (ih hmoved')
  | skip hp hd ht hs hv _ ih =>
    obtain ⟨s', hs', hmoved'⟩ := h.find? hs
    exact .skip (hmoved.getElem? hp) hd ht hs' (h.vanishing hmoved' hv) (ih hmoved)

/-- The paths of a state go along with the move. -/
theorem Reordered.path (h : g.Reordered σ g') {k : Key} {t : Transition} (hpath : g.Path k t) :
    g'.Path (k.shuffled σ) (t.shuffled σ) := by
  cases hpath with
  | entry hr hway =>
    obtain ⟨r', hr', hmoved⟩ := h.forth _ hr
    rw [hmoved.entry]
    exact .entry hr' (h.way hmoved hway)
  | onward hr hway =>
    obtain ⟨r', hr', hmoved⟩ := h.forth _ hr
    rw [hmoved.inside]
    exact .onward hr' (h.way hmoved hway)
  | again hr hp hi hrepeat hrest hway =>
    obtain ⟨r', hr', hmoved⟩ := h.forth _ hr
    rw [hmoved.inside]
    exact .again hr' (hmoved.getElem? hp) hi (hmoved.repeatable.trans hrepeat)
      (fun d hd => h.skippable (hrest d hd)) (h.way hmoved hway)

/-- A conflict comes up at the moved state, between the moved transitions. -/
theorem Reordered.conflict (h : g.Reordered σ g') {k : Key} {t t' : Transition}
    (hc : g.Conflict k t t') : g'.Conflict (k.shuffled σ) (t.shuffled σ) (t'.shuffled σ) := by
  obtain ⟨hpath, hpath', hne, htoken⟩ := hc
  exact ⟨h.path hpath, h.path hpath', (Transition.shuffled_injective σ).ne hne, htoken⟩

/-- Since there is a way back, no new ending comes in. -/
theorem Reordered.ending_iff (h : g.Reordered σ g') (k : Key) :
    g'.Ending (k.shuffled σ) ↔ g.Ending k := by
  refine ⟨fun hk => ?_, h.ending⟩
  simpa using h.symm.ending hk

/-- And no new path. -/
theorem Reordered.path_iff (h : g.Reordered σ g') (k : Key) (t : Transition) :
    g'.Path (k.shuffled σ) (t.shuffled σ) ↔ g.Path k t := by
  refine ⟨fun hpath => ?_, h.path⟩
  simpa using h.symm.path hpath

-- ---------------------------------------------------------------------------
-- The tables
-- ---------------------------------------------------------------------------

/-- Conflicts go along, so if one grammar is refused the other one is. -/
theorem Reordered.refused (h : g.Reordered σ g') (hg : g.Closed)
    (href : ∃ s e t, (g.compile.run []).result = .error (.ambiguous s e t)) :
    ∃ s e t, (g'.compile.run []).result = .error (.ambiguous s e t) := by
  obtain ⟨k, e, t, hconflict⟩ := (compile_exact hg).2.1.mp href
  exact (compile_exact (h.closed hg)).2.1.mpr ⟨_, _, _, h.conflict hconflict⟩

/-- A state whose paths are those of another one, after the move, finds the same transitions. -/
theorem Reordered.find?_transition (h : g.Reordered σ g') {table table' : Table}
    (htable : TableOf g table) (htable' : TableOf g' table') {s s' : State}
    (hs : s ∈ table) (hs' : s' ∈ table')
    (hkey : s'.key = s.key.shuffled σ) (d : Descriptor) :
    s'.find? d = (s.find? d).map (Transition.shuffled σ) := by
  refine Option.ext fun t' => ?_
  rw [htable'.find?_eq_some_iff hs', hkey, Option.map_eq_some_iff]
  constructor
  · rintro ⟨hpath, htoken⟩
    refine ⟨t'.shuffled σ.back, (htable.find?_eq_some_iff hs).mpr ⟨?_, htoken⟩, t'.back_shuffled σ⟩
    rw [← h.path_iff, Transition.back_shuffled]
    exact hpath
  · rintro ⟨t, ht, rfl⟩
    obtain ⟨hpath, htoken⟩ := (htable.find?_eq_some_iff hs).mp ht
    exact ⟨h.path hpath, htoken⟩

end Along

/--
**The order of declarations does not matter.** Compile a closed grammar, and the same grammar with
its rules in another order and the patterns of each rule in another order.

- Either both have a table, or both are refused as ambiguous.
- The tables have the same keys, after the patterns were moved.
- A state may end its pattern in both or in neither, and on every token it has the same transition:
  to the same state, through the same references, starting its rule over in both or in neither.
-/
theorem compile_reordered {σ : Shuffle} {g g' : Grammar α} (hg : g.Closed) (h : g.Reordered σ g') :
    ((∃ table table', (g.compile.run []).result = .ok table ∧
        (g'.compile.run []).result = .ok table') ∨
      ∃ s e t s' e' t', (g.compile.run []).result = .error (.ambiguous s e t) ∧
        (g'.compile.run []).result = .error (.ambiguous s' e' t')) ∧
    ∀ table table', (g.compile.run []).result = .ok table →
      (g'.compile.run []).result = .ok table' →
      (∀ k', (∃ s', table'.find? k' = some s') ↔
        ∃ k s, table.find? k = some s ∧ k.shuffled σ = k') ∧
      ∀ k s s', table.find? k = some s → table'.find? (k.shuffled σ) = some s' →
        s'.reducible = s.reducible ∧ ∀ d, s'.find? d = (s.find? d).map (Transition.shuffled σ) := by
  have hg' := h.closed hg
  refine ⟨?_, fun table table' hok hok' => ?_⟩
  · rcases (compile_exact hg).1 with ⟨table, hok⟩ | hrefused
    · rcases (compile_exact hg').1 with ⟨table', hok'⟩ | hrefused'
      · exact .inl ⟨table, table', hok, hok'⟩
      · obtain ⟨s, e, t, herror⟩ := h.symm.refused hg' hrefused'
        rw [hok] at herror
        cases herror
    · obtain ⟨s', e', t', herror'⟩ := h.refused hg hrefused
      obtain ⟨s, e, t, herror⟩ := hrefused
      exact .inr ⟨s, e, t, s', e', t', herror, herror'⟩
  · have htable := tableOf_of_compile hg hok
    have htable' := tableOf_of_compile hg' hok'
    refine ⟨fun k' => ?_, fun k s s' hs hs' => ?_⟩
    · rw [htable'.exists_find?_iff]
      constructor
      · intro hk'
        have hk := h.symm.place hk'
        obtain ⟨s, hs⟩ := htable.exists_find?_iff.mpr hk
        exact ⟨_, s, hs, k'.back_shuffled σ⟩
      · rintro ⟨k, s, hs, rfl⟩
        exact h.place (htable.exists_find?_iff.mp ⟨s, hs⟩)
    · have hkey : s'.key = s.key.shuffled σ := by
        rw [Table.key_of_find?_eq_some hs', Table.key_of_find?_eq_some hs]
      have hmem := List.mem_of_find?_eq_some hs
      have hmem' := List.mem_of_find?_eq_some hs'
      refine ⟨?_, h.find?_transition htable htable' hmem hmem' hkey⟩
      rw [Bool.eq_iff_iff, htable.reducible s hmem, htable'.reducible s' hmem', hkey, h.ending_iff]

/-- A list of items, and items that are words or lists in brackets. -/
private def listsFirst : Grammar Unit where
  rules := [{ id := ⟨"list", 0⟩
              patterns := [.ofTokens [⟨.reference, "item"⟩] none]
              markedOptional := true },
    { id := ⟨"item", 0⟩
      patterns := [.ofTokens [⟨.category, "ID"⟩] none,
        .ofTokens [⟨.literal, "("⟩, ⟨.reference, "list"⟩, ⟨.literal, ")"⟩] none]
      repeatable := true }]
  distinct := by decide

/-- The same, with items declared first, and lists in brackets first among them. -/
private def itemsFirst : Grammar Unit where
  rules := [{ id := ⟨"item", 0⟩
              patterns := [.ofTokens [⟨.literal, "("⟩, ⟨.reference, "list"⟩, ⟨.literal, ")"⟩] none,
                .ofTokens [⟨.category, "ID"⟩] none]
              repeatable := true },
    { id := ⟨"list", 0⟩, patterns := [.ofTokens [⟨.reference, "item"⟩] none],
      markedOptional := true }]
  distinct := by decide

/-- The two patterns of an item change places. -/
private def swapItems : Shuffle :=
  fun id => if id.name = "item" then Equiv.swap 0 1 else Equiv.refl _

/-- The two grammars of items differ by that move. -/
private theorem reordered_itemsFirst : listsFirst.Reordered swapItems itemsFirst := by
  have hlist : listsFirst.rules[0].Shuffled (swapItems ⟨"list", 0⟩) itemsFirst.rules[1] :=
    ⟨rfl, rfl, rfl, fun _ => rfl⟩
  have hitem : listsFirst.rules[1].Shuffled (swapItems ⟨"item", 0⟩) itemsFirst.rules[0] :=
    ⟨rfl, rfl, rfl, fun index => getElem?_swap _ _ [] index⟩
  refine ⟨fun r hr => ?_, fun r' hr' => ?_⟩
  · rcases List.mem_cons.mp hr with rfl | hr
    · exact ⟨_, List.mem_cons_of_mem _ (List.mem_singleton_self _), hlist⟩
    · obtain rfl := List.mem_singleton.mp hr
      exact ⟨_, List.mem_cons_self .., hitem⟩
  · rcases List.mem_cons.mp hr' with rfl | hr'
    · exact ⟨_, List.mem_cons_of_mem _ (List.mem_singleton_self _), hitem⟩
    · obtain rfl := List.mem_singleton.mp hr'
      exact ⟨_, List.mem_cons_self .., hlist⟩

/-- Lists compile in both orders, to tables with the same keys once the patterns of
items are swapped. -/
theorem compile_itemsFirst :
    listsFirst.Closed ∧ listsFirst.Reordered swapItems itemsFirst ∧
      ∃ table table', (listsFirst.compile.run []).result = .ok table ∧
        (itemsFirst.compile.run []).result = .ok table' ∧
        ∀ k', (∃ s', table'.find? k' = some s') ↔
          ∃ k s, table.find? k = some s ∧ k.shuffled swapItems = k' := by
  have hclosed : listsFirst.Closed := by decide
  obtain ⟨hboth, hsame⟩ := compile_reordered hclosed reordered_itemsFirst
  refine ⟨hclosed, reordered_itemsFirst, ?_⟩
  rcases hboth with ⟨table, table', hok, hok'⟩ | ⟨s, e, t, -, -, -, herror, -⟩
  · exact ⟨table, table', hok, hok', (hsame table table' hok hok').1⟩
  · have hok : (listsFirst.compile.run []).result.toOption.isSome = true := by decide +kernel
    rw [herror] at hok
    cases hok

end Grammar

end GrammarEngine
