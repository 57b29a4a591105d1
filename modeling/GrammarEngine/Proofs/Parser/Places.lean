import GrammarEngine.Proofs.Parser.Seats
import GrammarEngine.Proofs.Parser.Slots
import GrammarEngine.Proofs.Parser.Trees
import Mathlib.Data.List.Forall2

/-!
# Where the elements of a pattern are

With each value a frame keeps a position: that of the token, or of the first token of the instance,
that the value belongs to. Where several instances fill an element it is that of the last one, and
where none does there is no position. The frame itself has the position of its first token from the
beginning (`Bears`).

None of this depends on what the values are. So the trees that fill the elements are told here
without values (`Occupies`); instead, some trait of every instance in them is kept track of. The
frames of a stack are charted if each of them bears the positions of the trees that it has so far.
As in the growing of a tree, frames are pushed with the token that their patterns begin with, while
the token itself is put into a frame farther up (`Charting`).

Main results:

* `Bears.insert` — a position that is put in.
* `Charting.pushes`, `Charted.shift`, `charted_of_entry` — a shift leaves the stack charted.
* `Charted.complete`, `Charting.insert` — a completed frame is an instance that has the
  positions it bore.
-/

namespace GrammarEngine

variable {σ : Type}

namespace Tree

/-- Where a tree begins: the position of its first token. -/
def place (tree : Tree σ) : Option Position := tree.leaves.head?.bind Token.position

/-- The position that is kept for an element: where the last of the trees that fill it begins. -/
def placeOf (trees : List (Tree σ)) : Option Position := trees.getLast?.bind place

theorem placeOf_snoc (trees : List (Tree σ)) (tree : Tree σ) :
    placeOf (trees ++ [tree]) = tree.place := by
  unfold placeOf
  rw [List.getLast?_concat]
  rfl

theorem place_of_head? {tree : Tree σ} {first : Token} (h : tree.leaves.head? = some first) :
    tree.place = first.position := by
  unfold place
  rw [h]
  rfl

/-- What can be said of an instance: of its pattern, its first token, and the trees that fill
the elements. -/
abbrev Trait (σ : Type) := Pattern (Action σ) → Token → List (List (Tree σ)) → Prop

end Tree

namespace Grammar

variable {g : Grammar (Action σ)} {kinds : List String} {trait : Tree.Trait σ}

mutual

/-- `Instantiates g kinds trait r tree`: a tree is an instance of the rule `r`, and all instances in
it have a trait. -/
inductive Instantiates (g : Grammar (Action σ)) (kinds : List String) (trait : Tree.Trait σ) :
    Rule (Action σ) → Tree σ → Prop
  | node {r : Rule (Action σ)} {p : Pattern (Action σ)} {first : Token}
      {slots : List (List (Tree σ))}
      (hp : p ∈ r.patterns) (hslots : List.Forall₂ (Occupies g kinds trait) p.tokens slots)
      (hfirst : (Tree.leavesOf slots.flatten).head? = some first) (htrait : trait p first slots) :
      Instantiates g kinds trait r (.node p first slots)

/-- Trees fill one element. -/
inductive Occupies (g : Grammar (Action σ)) (kinds : List String) (trait : Tree.Trait σ) :
    Descriptor → List (Tree σ) → Prop
  /-- A terminal is filled by a token. -/
  | terminal {d : Descriptor} {token : Token} (ht : d.isTerminal = true)
      (h : d.Matches kinds token) : Occupies g kinds trait d [.leaf token]
  /-- A reference is filled by one instance. -/
  | one {d : Descriptor} {s : Rule (Action σ)} {tree : Tree σ} (ht : d.isTerminal = false)
      (hs : g.find? d.name = some s) (hrepeat : s.repeatable = false)
      (h : Instantiates g kinds trait s tree) : Occupies g kinds trait d [tree]
  /-- A reference to a rule that repeats is filled by one or several. -/
  | many {d : Descriptor} {s : Rule (Action σ)} {trees : List (Tree σ)} (ht : d.isTerminal = false)
      (hs : g.find? d.name = some s) (hrepeat : s.repeatable = true) (hne : trees ≠ [])
      (h : ∀ tree ∈ trees, Instantiates g kinds trait s tree) : Occupies g kinds trait d trees
  /-- A reference to a rule that can match nothing may be left empty. -/
  | missing {d : Descriptor} {s : Rule (Action σ)} (ht : d.isTerminal = false)
      (hs : g.find? d.name = some s) (hv : g.Vanishing s) : Occupies g kinds trait d []

end

/-- Trees fill a row of elements, from left to right. -/
abbrev OccupiesRow (g : Grammar (Action σ)) (kinds : List String) (trait : Tree.Trait σ) :
    List Descriptor → List (List (Tree σ)) → Prop := List.Forall₂ (Occupies g kinds trait)

theorem OccupiesRow.append {row row' : List Descriptor} {slots slots' : List (List (Tree σ))}
    (h : OccupiesRow g kinds trait row slots) (h' : OccupiesRow g kinds trait row' slots') :
    OccupiesRow g kinds trait (row ++ row') (slots ++ slots') := List.rel_append h h'

/-- Elements may be passed over. -/
theorem occupiesRow_blanks {row : List Descriptor} (h : ∀ d ∈ row, g.Skippable d) :
    OccupiesRow g kinds trait row (List.replicate row.length []) := by
  induction row with
  | nil => exact .nil
  | cons d rest ih =>
    obtain ⟨⟨ht, s, hs, hv⟩, hrest⟩ := List.forall_mem_cons.mp h
    exact .cons (.missing ht hs hv) (ih hrest)

/-- The instances that were collected so far for an element that refers to a rule. -/
structure Assembles (g : Grammar (Action σ)) (kinds : List String) (trait : Tree.Trait σ)
    (s : Rule (Action σ)) (trees : List (Tree σ)) : Prop where
  instances : ∀ tree ∈ trees, Instantiates g kinds trait s tree
  repeats : trees ≠ [] → s.repeatable = true

theorem assembles_nil {s : Rule (Action σ)} : Assembles g kinds trait s [] :=
  ⟨List.forall_mem_nil _, fun h => absurd rfl h⟩

/-- One instance more fills the element, and if the rule repeats yet another one may follow. -/
theorem Assembles.add {d : Descriptor} {s : Rule (Action σ)} {trees : List (Tree σ)} {tree : Tree σ}
    (h : Assembles g kinds trait s trees) (htree : Instantiates g kinds trait s tree)
    (ht : d.isTerminal = false) (hs : g.find? d.name = some s) :
    Occupies g kinds trait d (trees ++ [tree]) ∧
      (s.repeatable = true → Assembles g kinds trait s (trees ++ [tree])) := by
  have hinstances : ∀ tree' ∈ trees ++ [tree], Instantiates g kinds trait s tree' :=
    List.forall_mem_append.mpr ⟨h.instances, List.forall_mem_singleton.mpr htree⟩
  refine ⟨?_, fun hrepeat => ⟨hinstances, fun _ => hrepeat⟩⟩
  cases hrepeat : s.repeatable with
  | true =>
    exact .many ht hs hrepeat
      (List.append_ne_nil_of_right_ne_nil _ (List.cons_ne_nil _ _)) hinstances
  | false =>
    have hnone : trees = [] := by
      by_contra hne
      rw [h.repeats hne] at hrepeat
      cases hrepeat
    rw [hnone]
    exact .one ht hs hrepeat htree

end Grammar

namespace Parser

open Grammar

-- ---------------------------------------------------------------------------
-- The positions of a frame
-- ---------------------------------------------------------------------------

/-- A frame bears the position of its first token, and those of the trees in its slots. The
positions of the last slots need not be there yet, if there is nothing in them. -/
structure Bears (f : Frame σ) (first : Token) (slots : List (List (Tree σ))) : Prop where
  placed : first.position.isSome
  first_eq : f.first = first.position
  length_le : f.positions.length ≤ slots.length
  positions_eq : padded none slots.length f.positions = slots.map Tree.placeOf

/-- A frame that is pushed. -/
theorem bears_pushed {site : Site} {action : Option (Action σ)} {token : Token}
    (h : token.position.isSome) :
    Bears { site := site, action := action, first := token.position } token [] :=
  ⟨h, rfl, Nat.le_refl 0, rfl⟩

namespace Bears

variable {f : Frame σ} {first : Token} {slots : List (List (Tree σ))} {trees : List (Tree σ)}

/-- Elements are passed over. -/
theorem blanks (h : Bears f first slots) (count : Nat) :
    Bears f first (slots ++ List.replicate count []) where
  placed := h.placed
  first_eq := h.first_eq
  length_le := by
    rw [List.length_append]
    exact Nat.le_add_right_of_le h.length_le
  positions_eq := by
    have hcount : (slots ++ List.replicate count []).length - f.positions.length =
        (slots.length - f.positions.length) + count := by
      have := h.length_le
      rw [List.length_append, List.length_replicate]
      omega
    rw [padded, hcount, List.replicate_add, ← List.append_assoc, List.map_append, ← h.positions_eq,
      List.map_replicate]
    rfl

/-- The slot of an element is there, with nothing in it. -/
theorem blank (h : Bears f first slots) : Bears f first (slots ++ [[]]) := h.blanks 1

/-- **A position that is put in** for the last element takes the place of the one that was there. -/
theorem insert (h : Bears f first (slots ++ [trees])) (v : Value) (several : Bool)
    (new : List (Tree σ)) :
    Bears (f.insert slots.length v (Tree.placeOf new) several) first (slots ++ [new]) := by
  obtain ⟨place, hplace⟩ := Option.isSome_iff_exists.mp h.placed
  have hrow : (f.insert slots.length v (Tree.placeOf new) several).positions =
      (slots ++ [new]).map Tree.placeOf := by
    show (padded none (slots.length + 1) f.positions).set slots.length (Tree.placeOf new) = _
    have hlength : (slots ++ [trees]).length = slots.length + 1 := List.length_append
    rw [← hlength, h.positions_eq, List.map_append, List.map_append,
      List.set_append_right _ _ (by rw [List.length_map]), List.length_map, Nat.sub_self]
    rfl
  refine ⟨h.placed, ?_, ?_, ?_⟩
  · rw [hplace]
    exact Frame.insert_first _ _ _ _ (h.first_eq.trans hplace)
  · rw [hrow, List.length_map]
  · rw [hrow, padded, List.length_map, Nat.sub_self]
    exact List.append_nil _

/-- Moving a frame does not change what it bears. -/
theorem of_eq {f' : Frame σ} (h : Bears f first slots) (hfirst : f'.first = f.first)
    (hpositions : f'.positions = f.positions) : Bears f' first slots where
  placed := h.placed
  first_eq := hfirst.trans h.first_eq
  length_le := by
    rw [hpositions]
    exact h.length_le
  positions_eq := by
    rw [hpositions]
    exact h.positions_eq

end Bears

-- ---------------------------------------------------------------------------
-- The stack
-- ---------------------------------------------------------------------------

section Stack

variable {g : Grammar (Action σ)} {kinds : List String} {trait : Tree.Trait σ} {table : Table}
  {start : Rule (Action σ)}

/-- `Charting g kinds trait table start frames s leaves coming`: all frames wait, the innermost one
for an instance of `s` that begins with the token `coming`. They bear the positions of what they
have, and its tokens are `leaves`. -/
inductive Charting (g : Grammar (Action σ)) (kinds : List String) (trait : Tree.Trait σ)
    (table : Table)
    (start : Rule (Action σ)) : List (Frame σ) → Rule (Action σ) → List Token → Token → Prop
  | root {f : Frame σ} {trees : List (Tree σ)} {coming : Token} (hsite : Sits table f.site)
      (hkey : f.key = ⟨start.id, none, 0⟩) (h : Assembles g kinds trait start trees) :
      Charting g kinds trait table start [f] start (Tree.leavesOf trees) coming
  | inner {f : Frame σ} {below : List (Frame σ)} {r s : Rule (Action σ)} {pattern index : Nat}
      {p : Pattern (Action σ)} {d : Descriptor} {leaves tokens : List Token}
      {slots : List (List (Tree σ))} {trees : List (Tree σ)} {first coming : Token}
      (hbelow : Charting g kinds trait table start below r leaves first)
      (hseat : Seat g table f r pattern index p) (hd : p.tokens[index]? = some d)
      (ht : d.isTerminal = false)
      (hs : g.find? d.name = some s) (hrow : OccupiesRow g kinds trait (p.tokens.take index) slots)
      (h : Assembles g kinds trait s trees) (hbears : Bears f first (slots ++ [trees]))
      (htokens : Tree.leavesOf (slots ++ [trees]).flatten = tokens)
      (hfirst : (tokens ++ [coming]).head? = some first) :
      Charting g kinds trait table start (f :: below) s (leaves ++ tokens) coming

/-- The innermost frame has all elements filled up to the one where it stands, and has come to its
first token; the others wait. All of them bear the positions of what they have. -/
inductive Charted (g : Grammar (Action σ)) (kinds : List String) (trait : Tree.Trait σ)
    (table : Table) (start : Rule (Action σ)) : List (Frame σ) → List Token → Prop
  | intro {f : Frame σ} {below : List (Frame σ)} {r : Rule (Action σ)} {pattern index : Nat}
      {p : Pattern (Action σ)} {leaves tokens : List Token} {slots : List (List (Tree σ))}
      {first : Token} (hbelow : Charting g kinds trait table start below r leaves first)
      (hseat : Seat g table f r pattern index p)
      (hrow : OccupiesRow g kinds trait (p.tokens.take (index + 1)) slots)
      (hbears : Bears f first slots)
      (htokens : Tree.leavesOf slots.flatten = tokens) (hfirst : tokens.head? = some first) :
      Charted g kinds trait table start (f :: below) (leaves ++ tokens)

theorem Charted.exists_seat {f : Frame σ} {below : List (Frame σ)} {leaves : List Token}
    (h : Charted g kinds trait table start (f :: below) leaves) :
    ∃ r pattern index p, Seat g table f r pattern index p := by
  cases h with
  | intro _ hseat _ _ _ _ => exact ⟨_, _, _, _, hseat⟩

theorem Charted.below_ne_nil {f : Frame σ} {below : List (Frame σ)} {leaves : List Token}
    (h : Charted g kinds trait table start (f :: below) leaves) : below ≠ [] := by
  cases h with
  | intro hbelow _ _ _ _ _ =>
    cases hbelow with
    | root | inner => exact List.cons_ne_nil _ _

/-- Blank slots have no tokens. -/
theorem leavesOf_blanks (slots : List (List (Tree σ))) (count : Nat) :
    Tree.leavesOf (slots ++ List.replicate count []).flatten = Tree.leavesOf slots.flatten := by
  rw [List.flatten_append, List.flatten_replicate_nil, List.append_nil]

theorem leavesOf_blank (slots : List (List (Tree σ))) :
    Tree.leavesOf (slots ++ [[]]).flatten = Tree.leavesOf slots.flatten := leavesOf_blanks slots 1

-- ---------------------------------------------------------------------------
-- Taking a token
-- ---------------------------------------------------------------------------

/-- A frame that has come to a terminal takes the token. -/
theorem Charting.take {f : Frame σ} {below : List (Frame σ)} {r : Rule (Action σ)}
    {pattern index : Nat} {p : Pattern (Action σ)} {d : Descriptor} {leaves tokens : List Token}
    {slots : List (List (Tree σ))} {first token : Token}
    (hbelow : Charting g kinds trait table start below r leaves first)
    (hseat : Seat g table f r pattern index p) (hd : p.tokens[index]? = some d)
    (ht : d.isTerminal = true)
    (hmatch : d.Matches kinds token) (hrow : OccupiesRow g kinds trait (p.tokens.take index) slots)
    (hbears : Bears f first slots) (htokens : Tree.leavesOf slots.flatten = tokens)
    (hfirst : (tokens ++ [token]).head? = some first) :
    Charted g kinds trait table start (f.insert index token.value token.position false :: below)
      (leaves ++ (tokens ++ [token])) := by
  have hindex : slots.length = index := hrow.length_eq.symm.trans (length_take_of_getElem? hd)
  have hrow' := hrow.append (.cons (.terminal ht hmatch) .nil)
  rw [take_append_of_getElem? hd] at hrow'
  have hbears' := hbears.blank.insert token.value false [.leaf token]
  rw [hindex] at hbears'
  refine .intro hbelow (hseat.of_eq rfl rfl) hrow' hbears' ?_ hfirst
  rw [List.flatten_append, Tree.leavesOf_append, htokens]
  rfl

/-- From a stack that waits for a rule, frames are pushed along a way into that rule until one takes
the token. All of them begin with it. -/
theorem Charting.pushes {p : Parser σ} (hp : p.grammar = g) {site : Site}
    (hsite : site.table = table) {token : Token} (hplace : token.position.isSome)
    {target : Key} {terminal : Descriptor} (hmatch : terminal.Matches kinds token)
    {chain : List Key} {s : Rule (Action σ)} {inner : Nat} (hs : s ∈ g.rules)
    (hway : g.Way s inner 0 chain target terminal) {frames rest : List (Frame σ)} {top : Frame σ}
    {leaves : List Token} (hcharting : Charting g kinds trait table start frames s leaves token)
    (h : Pushes p site token (chain ++ [target]) frames (top :: rest)) :
    Charted g kinds trait table start
      (top.insert target.index token.value token.position false :: rest) (leaves ++ [token]) := by
  induction chain generalizing s inner frames leaves with
  | nil =>
    obtain ⟨q, index, d, hq, hd, hpass, ht, rfl, rfl⟩ := hway.of_nil
    cases h with
    | cons hnext hpattern h =>
      cases h with
      | nil =>
        have hseat :=
          seat_of_pushed token hp hsite hs hq (List.getElem?_eq_some_iff.mp hd).1 hnext hpattern
        exact hcharting.take hseat hd ht (Descriptor.matches_of_normalized hmatch)
          (occupiesRow_blanks hpass) ((bears_pushed hplace).blanks _) (leavesOf_blanks [] _) rfl
  | cons k chain ih =>
    obtain ⟨q, index, d, s', inner', hq, hd, hpass, ht, hs', rfl, hway'⟩ := hway.of_cons
    cases h with
    | cons hnext hpattern h =>
      have hseat :=
        seat_of_pushed token hp hsite hs hq (List.getElem?_eq_some_iff.mp hd).1 hnext hpattern
      have hwaits : Charting g kinds trait table start _ s' (leaves ++ []) token :=
        .inner hcharting hseat hd ht hs' (occupiesRow_blanks hpass) assembles_nil
          ((bears_pushed hplace).blanks _).blank
            ((leavesOf_blank _).trans (leavesOf_blanks [] _)) rfl
      rw [List.append_nil] at hwaits
      exact ih (mem_of_find?_eq_some hs') hway' hwaits h

/-- From a stack with a pattern under way the innermost frame moves on along a way, to take the
token itself or to wait for the frames that are pushed. -/
theorem Charted.enters {p : Parser σ} (hp : p.grammar = g) {site : Site}
    (hsite : site.table = table) {token : Token} (hplace : token.position.isSome)
    {target : Key} {terminal : Descriptor} (hmatch : terminal.Matches kinds token)
    {chain : List Key} {r : Rule (Action σ)} {pattern index : Nat}
    (hr : r ∈ g.rules) (hway : g.Way r pattern (index + 1) chain target terminal) {f top : Frame σ}
    {below rest : List (Frame σ)} {leaves : List Token} (hkey : f.key = ⟨r.id, some pattern, index⟩)
    (hcharted : Charted g kinds trait table start (f :: below) leaves)
    (h : Enters p site token true (chain ++ [target]) (f :: below) (top :: rest)) :
    Charted g kinds trait table start
      (top.insert target.index token.value token.position false :: rest) (leaves ++ [token]) := by
  obtain @⟨_, _, r', pattern', index', q, leaves, tokens, slots, first, hbelow, hseat, hrow, hbears,
      htokens, hfirst⟩ :=
    hcharted
  obtain ⟨rfl, rfl, rfl⟩ := eq_of_inside_eq hseat.mem_rules hr (hseat.key_eq.symm.trans hkey)
  obtain ⟨next, d, hle, hd, hpass, hgoes⟩ := hway.exists_next hseat.pattern_eq
  -- the elements that are passed over have blank slots
  have hrow' := hrow.append (occupiesRow_blanks hpass)
  rw [take_append_drop_take hle] at hrow'
  have htokens' :=
    (leavesOf_blanks slots ((q.tokens.take next).drop (index' + 1)).length).trans htokens
  have hbears' (site' : Site) : Bears { f with site := site' } first
      (slots ++ List.replicate ((q.tokens.take next).drop (index' + 1)).length []) :=
        (hbears.blanks _).of_eq rfl rfl
  have hlt := (List.getElem?_eq_some_iff.mp hd).1
  have hfirst' : (tokens ++ [token]).head? = some first := by
    rw [List.head?_append, hfirst]
    rfl
  rw [List.append_assoc]
  rcases hgoes with ⟨ht, rfl, rfl, rfl⟩ | ⟨s, inner, chain', ht, hs, rfl, hway'⟩
  · cases h with
    | moves hnext h =>
      cases h with
      | nil =>
        exact hbelow.take (hseat.moved hsite hlt hnext) hd ht
          (Descriptor.matches_of_normalized hmatch) hrow' (hbears' _) htokens' hfirst'
  · cases h with
    | moves hnext h =>
      have hwaits : Charting g kinds trait table start _ s (leaves ++ tokens) token :=
        .inner hbelow (hseat.moved hsite hlt hnext) hd ht hs hrow' assembles_nil (hbears' _).blank
          ((leavesOf_blank _).trans htokens') hfirst'
      rw [← List.append_assoc]
      exact hwaits.pushes hp hsite hplace hmatch (mem_of_find?_eq_some hs) hway' h

/-- **The innermost frame takes a token** along a transition of its state that does not
loop back. -/
theorem Charted.shift (htable : TableOf g table) {p : Parser σ} (hp : p.grammar = g) {token : Token}
    (hplace : token.position.isSome) {t : Transition} (hmatch : t.token.Matches kinds token)
    {f top : Frame σ} {below rest : List (Frame σ)} {leaves : List Token}
    (hcharted : Charted g kinds trait table start (f :: below) leaves)
    (ht : t ∈ f.site.state.transitions) (hloop : t.loopBack = false)
    (h : Enters p f.site token (f.site.state.key.pattern.isSome && !t.loopBack)
      (t.skipped ++ [t.target]) (f :: below) (top :: rest)) :
    Charted g kinds trait table start
      (top.insert t.target.index token.value token.position false :: rest) (leaves ++ [token]) := by
  obtain ⟨r, pattern, index, _, hseat⟩ := hcharted.exists_seat
  have hkey : f.site.state.key = ⟨r.id, some pattern, index⟩ := hseat.key_eq
  have hway := ((hseat.mem_transitions_iff htable).mp ht).of_not_loopBack hseat.mem_rules hloop
  rw [hkey, hloop] at h
  exact hcharted.enters hp hseat.sits.table_eq hplace hmatch hseat.mem_rules hway hseat.key_eq h

/-- From the frame of the start rule a token is taken along a transition of its entry state. -/
theorem charted_of_entry (htable : TableOf g table) {p : Parser σ}
    (hp : p.grammar = g) {token : Token} (hplace : token.position.isSome) {t : Transition}
    (hmatch : t.token.Matches kinds token) {root top : Frame σ} {rest : List (Frame σ)}
    (hstart : start ∈ g.rules) (hsite : Sits table root.site)
    (hkey : root.key = ⟨start.id, none, 0⟩) (ht : t ∈ root.site.state.transitions)
    (h : Enters p root.site token (root.site.state.key.pattern.isSome && !t.loopBack)
      (t.skipped ++ [t.target]) [root] (top :: rest)) :
    Charted g kinds trait table start
      (top.insert t.target.index token.value token.position false :: rest) [token] := by
  have hkey' : root.site.state.key = ⟨start.id, none, 0⟩ := hkey
  obtain ⟨-, pattern, hway⟩ := way_of_entry htable hstart hsite hkey' ht
  rw [hkey'] at h
  have hcharting : Charting g kinds trait table start [root] start [] token :=
    .root hsite hkey assembles_nil
  cases h with
  | fresh h => exact hcharting.pushes hp hsite.table_eq hplace hmatch hstart hway h

-- ---------------------------------------------------------------------------
-- Completing a frame
-- ---------------------------------------------------------------------------

/-- What a frame has is an instance of its pattern, and it bears the positions of that. -/
structure Fulfils (g : Grammar (Action σ)) (kinds : List String) (trait : Tree.Trait σ)
    (f : Frame σ) (r : Rule (Action σ)) (p : Pattern (Action σ)) (first : Token)
    (slots : List (List (Tree σ))) : Prop where
  mem_rules : r ∈ g.rules
  mem_patterns : p ∈ r.patterns
  row : OccupiesRow g kinds trait p.tokens slots
  head_eq : (Tree.leavesOf slots.flatten).head? = some first
  rule_eq : f.site.state.key.rule = r.id
  action_eq : f.action = p.action
  first_eq : f.first = first.position
  positions_eq : padded none f.site.state.tokens.length f.positions = slots.map Tree.placeOf

/-- **A frame whose pattern may end** has an instance of it, with the elements that are
left passed over. -/
theorem Charted.complete (htable : TableOf g table) {f : Frame σ} {below : List (Frame σ)}
    {leaves : List Token} (hcharted : Charted g kinds trait table start (f :: below) leaves)
    (hreducible : f.site.state.reducible = true) :
    ∃ r p first slots front, Fulfils g kinds trait f r p first slots ∧
      leaves = front ++ Tree.leavesOf slots.flatten ∧
      Charting g kinds trait table start below r front first := by
  obtain @⟨_, _, r, pattern, index, q, front, tokens, slots, first, hbelow, hseat, hrow, hbears,
      rfl, hfirst⟩ :=
    hcharted
  have hkey : f.site.state.key = ⟨r.id, some pattern, index⟩ := hseat.key_eq
  have hrow' := hrow.append (occupiesRow_blanks ((hseat.reducible_iff htable).mp hreducible))
  rw [List.take_append_drop] at hrow'
  have hleaves := leavesOf_blanks slots (q.tokens.drop (index + 1)).length
  have hplaces := (hbears.blanks (q.tokens.drop (index + 1)).length).positions_eq
  rw [← hrow'.length_eq] at hplaces
  refine ⟨r, q, first, _, front, ⟨hseat.mem_rules, List.mem_of_getElem? hseat.pattern_eq, hrow', ?_,
    by rw [hkey], hseat.action_eq, hbears.first_eq, ?_⟩, ?_, hbelow⟩
  · rw [hleaves]
    exact hfirst
  · rw [hseat.tokens_eq htable]
    exact hplaces
  · rw [hleaves]

/-- **An instance of the rule that a stack waits for** goes into the slot of the innermost frame,
with the position of its first token. If the rule repeats the stack may go on waiting for it; and
unless only the frame of the start rule is left, the element is filled. -/
theorem Charting.insert {parent : Frame σ} {rest : List (Frame σ)} {r : Rule (Action σ)}
    {leaves : List Token} {tree : Tree σ} {first : Token} (hstart : start ∈ g.rules)
    (hcharting : Charting g kinds trait table start (parent :: rest) r leaves first)
    (htree : Instantiates g kinds trait r tree) (hfirst : tree.leaves.head? = some first)
    (v : Value) :
    (r.repeatable = true → ∀ coming, Charting g kinds trait table start
      (parent.insert parent.key.index v first.position r.repeatable :: rest) r
        (leaves ++ tree.leaves) coming) ∧
    ((rest = [] ∧ ∃ trees, Occupies g kinds trait ⟨.reference, start.name⟩ trees ∧
        Tree.leavesOf trees = leaves ++ tree.leaves) ∨
      Charted g kinds trait table start (parent.insert parent.key.index v first.position
        r.repeatable :: rest) (leaves ++ tree.leaves)) := by
  cases hcharting with
  | @root _ trees _ hsite hkey h =>
    have hfind : g.find? (⟨.reference, start.name⟩ : Descriptor).name = some start :=
      find?_of_mem hstart
    obtain ⟨hfilled, hagain⟩ := h.add htree rfl hfind
    have htokens : Tree.leavesOf (trees ++ [tree]) = Tree.leavesOf trees ++ tree.leaves := by
      rw [Tree.leavesOf_append, Tree.leavesOf_singleton]
    rw [← htokens]
    exact ⟨fun hrepeat _ => .root hsite hkey (hagain hrepeat), .inl ⟨rfl, _, hfilled, rfl⟩⟩
  | @inner _ _ r' _ _ index q d leaves tokens slots trees first' _ hbelow hseat hd ht hs hrow h
      hbears htokens hhead =>
    obtain ⟨hfilled, hagain⟩ := h.add htree ht hs
    have hindex : parent.key.index = slots.length := by
      rw [hseat.key_eq, ← hrow.length_eq, length_take_of_getElem? hd]
    have hbears' := hbears.insert v r.repeatable (trees ++ [tree])
    rw [Tree.placeOf_snoc, Tree.place_of_head? hfirst, ← hindex] at hbears'
    have htokens' : Tree.leavesOf (slots ++ [trees ++ [tree]]).flatten = tokens ++ tree.leaves := by
      rw [← htokens, ← Tree.leavesOf_singleton tree, ← Tree.leavesOf_append, List.flatten_append,
        List.flatten_append, List.flatten_singleton, List.flatten_singleton, List.append_assoc]
    have hhead' : (tokens ++ tree.leaves).head? = some first' := by
      rw [List.head?_append] at hhead ⊢
      rw [hfirst]
      exact hhead
    rw [List.append_assoc]
    refine ⟨fun hrepeat coming => ?_, .inr ?_⟩
    · refine .inner hbelow (hseat.of_eq rfl rfl) hd ht hs hrow (hagain hrepeat) hbears' htokens' ?_
      rw [List.head?_append, hhead']
      rfl
    · have hrow' := hrow.append (.cons hfilled .nil)
      rw [take_append_of_getElem? hd] at hrow'
      exact .intro hbelow (hseat.of_eq rfl rfl) hrow' hbears' htokens' hhead'

end Stack

end Parser

end GrammarEngine
