import GrammarEngine.Proofs.Parser.Seats
import GrammarEngine.Proofs.Parser.Slots
import GrammarEngine.Proofs.Parser.Trees

/-!
# The tree that a stack grows

Between two rounds the stack of a parse is a derivation tree that is being built. The frames are its
unfinished instances, the outermost one at the bottom, and what fills the elements of a frame so far
are finished trees (`Cell`). So the course of the unfinished tree is that of the frames, one behind
the other: the opening of an instance, and the trees in its slots.

A frame is pushed with the token that its pattern begins with, while that token is put into a frame
farther up. So a stack that waits does so for an instance with a certain first token (`Growing`),
and that is the first token of each frame that has none of its own yet.

Shifting puts the openings of the frames that are pushed and the token at the end of the course.
Completing a frame changes nothing of it.

Main results:

* `Growing.pushes`, `Grown.shift` — what a shift adds to the course.
* `Grown.complete`, `Growing.insert` — a completed frame is a tree, with the course that it had.
-/

namespace GrammarEngine

variable {σ : Type}

/-- A slot of a frame: the element it is for, the trees that fill it, and the value that
is kept there. -/
structure Cell (σ : Type) where
  element : Descriptor
  trees : List (Tree σ)
  raw : Value

namespace Cell

/-- The slot of an element that is passed over. -/
def blank (d : Descriptor) : Cell σ := ⟨d, [], .nothing⟩

/-- Some slots from left to right. -/
def course (cells : List (Cell σ)) : List (Mark σ) := Tree.courseOf (cells.flatMap trees)

theorem course_append (cells cells' : List (Cell σ)) :
    course (cells ++ cells') = course cells ++ course cells' := by
  unfold course
  rw [List.flatMap_append, Tree.courseOf_append]

theorem course_singleton (c : Cell σ) : course [c] = Tree.courseOf c.trees := by
  unfold course
  rw [List.flatMap_cons, List.flatMap_nil, List.append_nil]

/-- Slots that are passed over hold nothing. -/
theorem course_blanks (passed : List Descriptor) :
    course (passed.map blank : List (Cell σ)) = [] := by
  induction passed with
  | nil => rfl
  | cons d rest ih => exact ih

/-- Elements that are passed over do not show in the course. -/
theorem course_append_blanks (cells : List (Cell σ)) (passed : List Descriptor) :
    course (cells ++ passed.map blank) = course cells := by
  rw [course_append, course_blanks, List.append_nil]

/-- The course of the trees in some slots. -/
theorem courseOf_slots (cells : List (Cell σ)) :
    Tree.courseOf (cells.map trees).flatten = course cells := by
  rw [course, List.flatMap_def]

/-- What is kept in a slot will be the value of the element that the trees fill. -/
def Sound (g : Grammar (Action σ)) (kinds : List String) (c : Cell σ) : Prop :=
  ∃ v, Parser.filled g c.element c.raw = .ok v ∧ g.Fills kinds c.element c.trees v

end Cell

namespace Grammar

variable {g : Grammar (Action σ)} {kinds : List String} {cells cells' : List (Cell σ)}
  {row row' before : List Descriptor} {values values' : List Value} {d : Descriptor}
  {s : Rule (Action σ)} {trees : List (Tree σ)} {tree : Tree σ} {v : Value}

-- ---------------------------------------------------------------------------
-- Rows of slots
-- ---------------------------------------------------------------------------

/-- The slots of a row of elements, all of them filled, with the values that are kept in them. -/
structure Laid (g : Grammar (Action σ)) (kinds : List String) (cells : List (Cell σ))
    (row : List Descriptor) (values : List Value) : Prop where
  elements : cells.map Cell.element = row
  values : cells.map Cell.raw = values
  sound : ∀ c ∈ cells, c.Sound g kinds

/-- Rows may be laid one behind the other. -/
theorem Laid.append (h : Laid g kinds cells row values) (h' : Laid g kinds cells' row' values') :
    Laid g kinds (cells ++ cells') (row ++ row') (values ++ values') where
  elements := by rw [List.map_append, h.elements, h'.elements]
  values := by rw [List.map_append, h.values, h'.values]
  sound := List.forall_mem_append.mpr ⟨h.sound, h'.sound⟩

/-- One slot is a row. -/
theorem laid_singleton {c : Cell σ} (h : c.Sound g kinds) : Laid g kinds [c] [c.element] [c.raw] :=
  ⟨rfl, rfl, List.forall_mem_singleton.mpr h⟩

/-- Elements that are passed over are laid without trees. -/
theorem laid_blanks (h : ∀ d ∈ row, g.Skippable d) :
    Laid g kinds (row.map Cell.blank) row (List.replicate row.length .nothing) where
  elements := by
    rw [List.map_map]
    exact List.map_id _
  values := by
    rw [List.map_map]
    exact List.map_const'
  sound := by
    intro c hc
    obtain ⟨d, hd, rfl⟩ := List.mem_map.mp hc
    obtain ⟨ht, s, hs, hv⟩ := h d hd
    exact ⟨_, filled_nothing ht hs, .missing ht hs hv⟩

theorem Laid.length (h : Laid g kinds cells row values) : values.length = row.length := by
  rw [← h.values, ← h.elements, List.length_map, List.length_map]

/-- The values of a row that is filled to its end are those of its trees. -/
theorem Laid.completed (h : Laid g kinds cells row values) :
    ∃ vs, Parser.completed g row values = .ok vs ∧
      FillsRow g kinds row (cells.map Cell.trees) vs := by
  obtain ⟨rfl, rfl, hsound⟩ := h
  induction cells with
  | nil => exact ⟨[], rfl, .nil⟩
  | cons c rest ih =>
    obtain ⟨⟨v, hv, hfills⟩, hrest⟩ := List.forall_mem_cons.mp hsound
    obtain ⟨vs, hvs, hrow⟩ := ih hrest
    refine ⟨v :: vs, ?_, .cons hfills hrow⟩
    rw [List.map_cons, List.map_cons]
    unfold Parser.completed
    rw [hv, hvs]
    rfl

/-- The slots in front of an element are filled; those of the last elements may not have
been made yet. -/
def Prepared (g : Grammar (Action σ)) (kinds : List String) (cells : List (Cell σ))
    (before : List Descriptor) (values : List Value) : Prop :=
  values.length ≤ before.length ∧
    Laid g kinds cells before (Parser.padded .nothing before.length values)

theorem laid_nil : Laid g kinds [] [] [] := ⟨rfl, rfl, fun _ hc => nomatch hc⟩

/-- Behind a filled row elements may be passed over. -/
theorem Laid.pass {passed : List Descriptor} (h : Laid g kinds cells row values)
    (hpass : ∀ d ∈ passed, g.Skippable d) :
    Prepared g kinds (cells ++ passed.map Cell.blank) (row ++ passed) values := by
  have hlength := h.length
  have hcount : (row ++ passed).length - values.length = passed.length := by
    rw [List.length_append]
    omega
  refine ⟨by rw [List.length_append]; omega, ?_⟩
  rw [Parser.padded, hcount]
  exact h.append (laid_blanks hpass)

/-- In front of the first element that is not passed over there is nothing. -/
theorem prepared_blanks (hpass : ∀ d ∈ row, g.Skippable d) :
    Prepared g kinds (row.map Cell.blank) row [] :=
  laid_nil.pass hpass

/-- A value is put in behind elements that were passed over. -/
theorem Prepared.insert {item : Value} (h : Prepared g kinds cells before values)
    (hc : (⟨d, trees, item⟩ : Cell σ).Sound g kinds) :
    Laid g kinds (cells ++ [⟨d, trees, item⟩]) (before ++ [d])
      (Frame.setSlot .nothing before.length item values) := by
  rw [setSlot_of_length_le h.1]
  exact h.2.append (laid_singleton hc)

-- ---------------------------------------------------------------------------
-- Collecting instances
-- ---------------------------------------------------------------------------

/-- Instances of a rule are being collected for an element behind `before`, if there are any yet. -/
inductive Gathering (g : Grammar (Action σ)) (kinds : List String) (before : List Descriptor)
    (d : Descriptor) (s : Rule (Action σ)) : List (Cell σ) → List Value → Prop
  | fresh {cells : List (Cell σ)} {values : List Value} (h : Prepared g kinds cells before values) :
      Gathering g kinds before d s cells values
  | begun {cells : List (Cell σ)} {trees : List (Tree σ)} {values items : List Value}
      (hrepeat : s.repeatable = true)
      (h : Laid g kinds cells before values) (hs : DerivesAll g kinds s trees items) :
      Gathering g kinds before d s (cells ++ [⟨d, trees, .series items⟩])
        (values ++ [.series items])

/-- The trees in the slot of a rule after one more instance, and what is kept there. -/
inductive Collected (g : Grammar (Action σ)) (kinds : List String) (s : Rule (Action σ)) :
    List (Tree σ) → Value → Prop
  | single {tree : Tree σ} {v : Value}
      (hrepeat : s.repeatable = false) (h : Derives g kinds s tree v) : Collected g kinds s [tree] v
  | several {trees : List (Tree σ)} {items : List Value} (hrepeat : s.repeatable = true)
      (h : DerivesAll g kinds s trees items) : Collected g kinds s trees (.series items)

/-- What was collected for a reference fills it. -/
theorem Collected.fills {raw : Value} (h : Collected g kinds s trees raw)
    (ht : d.isTerminal = false) (hs : g.find? d.name = some s) : Fills g kinds d trees raw := by
  cases h with
  | single hrepeat h => exact .one ht hs hrepeat h
  | several hrepeat h => exact .many ht hs hrepeat h

/-- So its slot is sound. -/
theorem Collected.sound {raw : Value}
    (h : Collected g kinds s trees raw) (ht : d.isTerminal = false)
    (hs : g.find? d.name = some s) : (⟨d, trees, raw⟩ : Cell σ).Sound g kinds := by
  refine ⟨raw, ?_, h.fills ht hs⟩
  cases h with
  | single hrepeat _ => exact filled_single hs hrepeat raw
  | several _ _ => rfl

/-- What was collected for a rule that repeats may be gone on with. -/
theorem Collected.begun {raw : Value} (h : Collected g kinds s trees raw)
    (hlaid : Laid g kinds cells before values) (hrepeat : s.repeatable = true) :
    Gathering g kinds before d s (cells ++ [⟨d, trees, raw⟩]) (values ++ [raw]) := by
  cases h with
  | single hrepeat' =>
    rw [hrepeat] at hrepeat'
    cases hrepeat'
  | several _ hs => exact .begun hrepeat hlaid hs

/-- One more instance of a rule fills the slot that it was collected for. -/
theorem Gathering.insert {f : Frame σ} (h : Gathering g kinds before d s cells f.values)
    (hv : Derives g kinds s tree v) (position : Option Position) :
    ∃ front trees values raw, Laid g kinds front before values ∧ Collected g kinds s trees raw ∧
      Cell.course (front ++ [⟨d, trees, raw⟩]) = Cell.course cells ++ tree.course ∧
      (f.insert before.length v position s.repeatable).values = values ++ [raw] := by
  generalize hvalues : f.values = fvalues at h
  cases h with
  | fresh hprepared =>
    refine ⟨cells, [tree], _, if s.repeatable then .series (Series.push [] v) else v,
      hprepared.2, ?_, ?_, ?_⟩
    · cases hrepeat : s.repeatable with
      | true => exact .several hrepeat (.first hv)
      | false => exact .single hrepeat hv
    · rw [Cell.course_append, Cell.course_singleton, Tree.courseOf_singleton]
    · rw [← hvalues]
      exact insert_values_of_length_le (hvalues ▸ hprepared.1) v position s.repeatable
  | @begun front collected values items hrepeat hlaid hs =>
    refine ⟨front, collected ++ [tree], values, .series (Series.push items v), hlaid,
      .several hrepeat (.more hs hv), ?_, ?_⟩
    · rw [Cell.course_append, Cell.course_append, Cell.course_singleton, Cell.course_singleton,
        Tree.courseOf_append, Tree.courseOf_singleton, List.append_assoc]
    · rw [hrepeat, ← hlaid.length]
      exact insert_values_of_series hvalues v position

end Grammar

namespace Parser

open Grammar

-- ---------------------------------------------------------------------------
-- The stack
-- ---------------------------------------------------------------------------

section Stack

variable {g : Grammar (Action σ)} {kinds : List String} {table : Table} {start : Rule (Action σ)}

/-- `Growing g kinds table start frames s marks coming`: all frames wait, the innermost one for an
instance of `s` that begins with the token `coming`, and `marks` is the course of what they have. -/
inductive Growing (g : Grammar (Action σ)) (kinds : List String) (table : Table)
    (start : Rule (Action σ)) : List (Frame σ) → Rule (Action σ) → List (Mark σ) → Token → Prop
  | root {f : Frame σ} {cells : List (Cell σ)} {coming : Token} (hsite : Sits table f.site)
      (hkey : f.key = ⟨start.id, none, 0⟩)
      (h : Gathering g kinds [] ⟨.reference, start.name⟩ start cells f.values) :
      Growing g kinds table start [f] start (Cell.course cells) coming
  | inner {f : Frame σ} {below : List (Frame σ)} {r s : Rule (Action σ)} {pattern index : Nat}
      {p : Pattern (Action σ)} {d : Descriptor} {marks : List (Mark σ)} {cells : List (Cell σ)}
      {first coming : Token} (hbelow : Growing g kinds table start below r marks first)
      (hseat : Seat g table f r pattern index p)
      (hd : p.tokens[index]? = some d) (ht : d.isTerminal = false) (hs : g.find? d.name = some s)
      (h : Gathering g kinds (p.tokens.take index) d s cells f.values)
      (hfirst : (Mark.tokens (Cell.course cells) ++ [coming]).head? = some first) :
      Growing g kinds table start (f :: below) s
        (marks ++ .opens ⟨p, first⟩ :: Cell.course cells) coming

/-- The innermost frame has all elements filled up to the one where it stands, and has come to its
first token; the others wait. -/
inductive Grown (g : Grammar (Action σ)) (kinds : List String) (table : Table)
    (start : Rule (Action σ)) : List (Frame σ) → List (Mark σ) → Prop
  | intro {f : Frame σ} {below : List (Frame σ)} {r : Rule (Action σ)} {pattern index : Nat}
      {p : Pattern (Action σ)} {marks : List (Mark σ)} {cells : List (Cell σ)} {first : Token}
      (hbelow : Growing g kinds table start below r marks first)
      (hseat : Seat g table f r pattern index p)
      (h : Laid g kinds cells (p.tokens.take (index + 1)) f.values)
      (hfirst : (Mark.tokens (Cell.course cells)).head? = some first) :
      Grown g kinds table start (f :: below) (marks ++ .opens ⟨p, first⟩ :: Cell.course cells)

/-- The innermost frame of a stack that has grown sits at a place of its pattern. -/
theorem Grown.exists_seat {f : Frame σ} {below : List (Frame σ)} {marks : List (Mark σ)}
    (h : Grown g kinds table start (f :: below) marks) :
    ∃ r pattern index p, Seat g table f r pattern index p := by
  cases h with
  | intro _ hseat _ _ => exact ⟨_, _, _, _, hseat⟩

/-- Below it there is another frame, that of the start rule at least. -/
theorem Grown.below_ne_nil {f : Frame σ} {below : List (Frame σ)} {marks : List (Mark σ)}
    (h : Grown g kinds table start (f :: below) marks) : below ≠ [] := by
  cases h with
  | intro hbelow _ _ _ =>
    cases hbelow with
    | root | inner => exact List.cons_ne_nil _ _

-- ---------------------------------------------------------------------------
-- Taking a token
-- ---------------------------------------------------------------------------

/-- The instances that begin where frames are pushed for the states of some keys. -/
def opened (p : Parser σ) (token : Token) (keys : List Key) : List (Opening σ) :=
  keys.filterMap fun k => (p.patternOf? k).map (⟨·, token⟩)

/-- The instances opened on the way, the outermost first. -/
theorem opened_cons {p : Parser σ} {token : Token} {k : Key} {keys : List Key}
    {q : Pattern (Action σ)} (h : p.patternOf? k = some q) :
    p.opened token (k :: keys) = ⟨q, token⟩ :: p.opened token keys := by
  unfold opened
  rw [List.filterMap_cons_some (by rw [h]; rfl)]

/-- The states of a transition that frames are pushed for. The first state on the way is not among
them if the innermost frame moves there. -/
def entered (site : Site) (t : Transition) : List Key :=
  if site.state.key.pattern.isSome && !t.loopBack then (t.skipped ++ [t.target]).tail else
    t.skipped ++ [t.target]

/-- A frame that has come to a terminal takes the token. -/
theorem Growing.take {f : Frame σ} {below : List (Frame σ)} {r : Rule (Action σ)}
    {pattern index : Nat} {p : Pattern (Action σ)} {d : Descriptor} {marks : List (Mark σ)}
    {cells : List (Cell σ)} {first token : Token}
    (hbelow : Growing g kinds table start below r marks first)
    (hseat : Seat g table f r pattern index p)
    (hd : p.tokens[index]? = some d) (ht : d.isTerminal = true) (hmatch : d.Matches kinds token)
    (h : Prepared g kinds cells (p.tokens.take index) f.values)
    (hfirst : (Mark.tokens (Cell.course cells) ++ [token]).head? = some first) :
    Grown g kinds table start (f.insert index token.value token.position false :: below)
      (marks ++ .opens ⟨p, first⟩ :: (Cell.course cells ++ [.reads token])) := by
  have hleaf : (⟨d, [.leaf token], token.value⟩ : Cell σ).Sound g kinds :=
    ⟨token.value, filled_terminal ht _, .terminal ht hmatch⟩
  have hlaid := h.insert hleaf
  have hcourse : Cell.course (cells ++ [⟨d, [.leaf token], token.value⟩]) =
      Cell.course cells ++ [.reads token] :=
    Cell.course_append _ _
  rw [length_take_of_getElem? hd, take_append_of_getElem? hd] at hlaid
  rw [← hcourse]
  refine .intro hbelow (hseat.of_eq rfl rfl) hlaid ?_
  rw [hcourse, Mark.tokens_append]
  exact hfirst

/-- From a stack that waits for a rule, frames are pushed along a way into that rule until one takes
the token. All of them begin with it. -/
theorem Growing.pushes {p : Parser σ} (hp : p.grammar = g) {site : Site}
    (hsite : site.table = table)
    {token : Token} {target : Key} {terminal : Descriptor} (hmatch : terminal.Matches kinds token)
    {chain : List Key} {s : Rule (Action σ)} {inner : Nat} (hs : s ∈ g.rules)
    (hway : g.Way s inner 0 chain target terminal) {frames rest : List (Frame σ)} {top : Frame σ}
    {marks : List (Mark σ)} (hgrowing : Growing g kinds table start frames s marks token)
    (h : Pushes p site token (chain ++ [target]) frames (top :: rest)) :
    Grown g kinds table start (top.insert target.index token.value token.position false :: rest)
      (marks ++ ((p.opened token (chain ++ [target])).map .opens ++ [.reads token])) := by
  induction chain generalizing s inner frames marks with
  | nil =>
    obtain ⟨q, index, d, hq, hd, hpass, ht, rfl, rfl⟩ := hway.of_nil
    cases h with
    | cons hnext hpattern h =>
      cases h with
      | nil =>
        have hseat :=
          seat_of_pushed token hp hsite hs hq (List.getElem?_eq_some_iff.mp hd).1 hnext hpattern
        have hgrown := hgrowing.take hseat hd ht (Descriptor.matches_of_normalized hmatch)
          (prepared_blanks hpass) (by rw [Cell.course_blanks]; rfl)
        rw [Cell.course_blanks] at hgrown
        rw [List.nil_append, opened_cons (patternOf?_of_mem hp hs hq)]
        exact hgrown
  | cons k chain ih =>
    obtain ⟨q, index, d, s', inner', hq, hd, hpass, ht, hs', rfl, hway'⟩ := hway.of_cons
    cases h with
    | cons hnext hpattern h =>
      have hseat :=
        seat_of_pushed token hp hsite hs hq (List.getElem?_eq_some_iff.mp hd).1 hnext hpattern
      have hgrowing' : Growing g kinds table start _ s' _ token :=
        .inner hgrowing hseat hd ht hs' (.fresh (prepared_blanks hpass))
          (by rw [Cell.course_blanks]; rfl)
      have hgrown := ih (mem_of_find?_eq_some hs') hway' hgrowing' h
      rw [Cell.course_blanks, List.append_assoc] at hgrown
      rw [List.cons_append, opened_cons (patternOf?_of_mem hp hs hq)]
      exact hgrown

/-- From a stack with a pattern under way the innermost frame moves on along a way, to take the
token itself or to wait for the frames that are pushed. -/
theorem Grown.enters {p : Parser σ} (hp : p.grammar = g) {site : Site} (hsite : site.table = table)
    {token : Token} {target : Key} {terminal : Descriptor} (hmatch : terminal.Matches kinds token)
    {chain : List Key} {r : Rule (Action σ)} {pattern index : Nat} (hr : r ∈ g.rules)
    (hway : g.Way r pattern (index + 1) chain target terminal)
    {f top : Frame σ} {below rest : List (Frame σ)} {marks : List (Mark σ)}
    (hkey : f.key = ⟨r.id, some pattern, index⟩)
    (hgrown : Grown g kinds table start (f :: below) marks)
    (h : Enters p site token true (chain ++ [target]) (f :: below) (top :: rest)) :
    Grown g kinds table start (top.insert target.index token.value token.position false :: rest)
      (marks ++ ((p.opened token (chain ++ [target]).tail).map .opens ++ [.reads token])) := by
  obtain @⟨_, _, r', pattern', index', q, marks, cells, first, hbelow, hseat, hlaid, hfirst⟩ :=
    hgrown
  obtain ⟨rfl, rfl, rfl⟩ := eq_of_inside_eq hseat.mem_rules hr (hseat.key_eq.symm.trans hkey)
  obtain ⟨next, d, hle, hd, hpass, hgoes⟩ := hway.exists_next hseat.pattern_eq
  have hprepared := hlaid.pass hpass
  rw [take_append_drop_take hle] at hprepared
  have hlt := (List.getElem?_eq_some_iff.mp hd).1
  -- what is passed over adds nothing to the course
  have hcourse := Cell.course_append_blanks cells ((q.tokens.take next).drop (index' + 1))
  have hfirst' : (Mark.tokens (Cell.course (cells ++
      ((q.tokens.take next).drop (index' + 1)).map Cell.blank)) ++ [token]).head? = some first := by
    rw [hcourse, List.head?_append, hfirst]
    rfl
  rcases hgoes with ⟨ht, rfl, rfl, rfl⟩ | ⟨s, inner, chain', ht, hs, rfl, hway'⟩
  · cases h with
    | moves hnext h =>
      cases h with
      | nil =>
        have hgrown := hbelow.take (hseat.moved hsite hlt hnext) hd ht
          (Descriptor.matches_of_normalized hmatch) hprepared hfirst'
        rw [hcourse] at hgrown
        rw [List.append_assoc]
        exact hgrown
  · cases h with
    | moves hnext h =>
      have hgrowing : Growing g kinds table start _ s _ token :=
        .inner hbelow (hseat.moved hsite hlt hnext) hd ht hs (.fresh hprepared) hfirst'
      rw [hcourse] at hgrowing
      exact hgrowing.pushes hp hsite hmatch (mem_of_find?_eq_some hs) hway' h

/-- **The innermost frame takes a token** along a transition of its state that does not
loop back. -/
theorem Grown.shift (htable : TableOf g table) {p : Parser σ} (hp : p.grammar = g) {token : Token}
    {t : Transition}
    (hmatch : t.token.Matches kinds token) {f top : Frame σ} {below rest : List (Frame σ)}
    {marks : List (Mark σ)} (hgrown : Grown g kinds table start (f :: below) marks)
    (ht : t ∈ f.site.state.transitions) (hloop : t.loopBack = false)
    (h : Enters p f.site token (f.site.state.key.pattern.isSome && !t.loopBack)
      (t.skipped ++ [t.target]) (f :: below) (top :: rest)) :
    Grown g kinds table start (top.insert t.target.index token.value token.position false :: rest)
      (marks ++ ((p.opened token (entered f.site t)).map .opens ++ [.reads token])) := by
  obtain ⟨r, pattern, index, _, hseat⟩ := hgrown.exists_seat
  have hkey : f.site.state.key = ⟨r.id, some pattern, index⟩ := hseat.key_eq
  have hway := ((hseat.mem_transitions_iff htable).mp ht).of_not_loopBack hseat.mem_rules hloop
  unfold entered
  rw [hkey, hloop] at h ⊢
  exact hgrown.enters hp hseat.sits.table_eq hmatch hseat.mem_rules hway hseat.key_eq h

/-- From the frame of the start rule a token is taken along a transition of its entry state. -/
theorem grown_of_entry (htable : TableOf g table) {p : Parser σ}
    (hp : p.grammar = g) {token : Token} {t : Transition} (hmatch : t.token.Matches kinds token)
    {root top : Frame σ} {rest : List (Frame σ)} (hstart : start ∈ g.rules)
    (hsite : Sits table root.site) (hkey : root.key = ⟨start.id, none, 0⟩)
    (hvalues : root.values = []) (ht : t ∈ root.site.state.transitions)
    (h : Enters p root.site token (root.site.state.key.pattern.isSome && !t.loopBack)
      (t.skipped ++ [t.target]) [root] (top :: rest)) :
    Grown g kinds table start (top.insert t.target.index token.value token.position false :: rest)
      ((p.opened token (entered root.site t)).map .opens ++ [.reads token]) := by
  have hkey' : root.site.state.key = ⟨start.id, none, 0⟩ := hkey
  obtain ⟨-, pattern, hway⟩ := way_of_entry htable hstart hsite hkey' ht
  rw [hkey'] at h
  have hfresh : Gathering g kinds [] ⟨.reference, start.name⟩ start [] root.values := by
    rw [hvalues]
    exact .fresh (prepared_blanks (List.forall_mem_nil _))
  have hgrowing : Growing g kinds table start [root] start [] token := .root hsite hkey hfresh
  unfold entered
  rw [hkey']
  cases h with
  | fresh h => exact hgrowing.pushes hp hsite.table_eq hmatch hstart hway h

-- ---------------------------------------------------------------------------
-- Completing a frame
-- ---------------------------------------------------------------------------

/-- **A frame whose pattern may end** is an instance of its rule, with the value that its action
makes of the completed slots. -/
theorem Grown.complete (htable : TableOf g table) {f : Frame σ} {below : List (Frame σ)}
    {marks : List (Mark σ)} (hgrown : Grown g kinds table start (f :: below) marks)
    (hreducible : f.site.state.reducible = true) :
    ∃ r tree front first values, marks = front ++ tree.course ∧ tree.leaves.head? = some first ∧
      r ∈ g.rules ∧ f.site.state.key.rule = r.id ∧ Growing g kinds table start below r front first ∧
      completed g f.site.state.tokens (padded .nothing f.site.state.tokens.length f.values) =
        .ok values ∧ ∀ v, Evaluates f.action values v → Derives g kinds r tree v := by
  obtain @⟨_, _, r, pattern, index, q, marks, cells, first, hbelow, hseat, hlaid, hfirst⟩ := hgrown
  have hkey : f.site.state.key = ⟨r.id, some pattern, index⟩ := hseat.key_eq
  have hprepared := hlaid.pass ((hseat.reducible_iff htable).mp hreducible)
  rw [List.take_append_drop] at hprepared
  obtain ⟨values, hvalues, hfills⟩ := hprepared.2.completed
  have hcourse := Cell.course_append_blanks cells (q.tokens.drop (index + 1))
  rw [← hcourse, ← Cell.courseOf_slots] at hfirst ⊢
  let slots := (cells ++ (q.tokens.drop (index + 1)).map Cell.blank).map Cell.trees
  refine ⟨r, .node q first slots, marks, first, values, ?_, ?_, hseat.mem_rules,
    by rw [hkey], hbelow, ?_, fun v hv => ?_⟩
  · rw [← Tree.courseOfRow_eq]
    rfl
  · rw [leaves_node]
    exact hfirst
  · rw [hseat.tokens_eq htable]
    exact hvalues
  · rw [hseat.action_eq] at hv
    exact .node (List.mem_of_getElem? hseat.pattern_eq) hfills hfirst hv

/-- What is added in front of a tree does not change with what comes behind its first token. -/
theorem head?_append_of_head? {tokens tokens' : List Token} {first coming : Token}
    (h : tokens'.head? = some coming) (hfirst : (tokens ++ [coming]).head? = some first) :
    (tokens ++ tokens').head? = some first := by
  rw [List.head?_append] at hfirst ⊢
  rw [h]
  exact hfirst

/-- **An instance of the rule that a stack waits for** goes into the slot of the innermost frame. If
the rule repeats the stack may go on waiting for it; and unless only the frame of the start rule is
left, the element is filled. -/
theorem Growing.insert {parent : Frame σ} {rest : List (Frame σ)} {r : Rule (Action σ)}
    {marks : List (Mark σ)} {tree : Tree σ} {v : Value} {first : Token}
    (hgrowing : Growing g kinds table start (parent :: rest) r marks first)
    (hv : Derives g kinds r tree v) (htree : tree.leaves.head? = some first)
    (position : Option Position) :
    (r.repeatable = true → ∀ coming, Growing g kinds table start
      (parent.insert parent.key.index v position r.repeatable ::
        rest) r (marks ++ tree.course) coming) ∧ ((rest = [] ∧
      ∃ trees raw, Collected g kinds start trees raw ∧ Tree.courseOf trees = marks ++ tree.course ∧
        (parent.insert parent.key.index v position r.repeatable).values = [raw]) ∨
      Grown g kinds table start (parent.insert parent.key.index v position r.repeatable ::
        rest) (marks ++ tree.course)) := by
  cases hgrowing with
  | root hsite hkey h =>
    obtain ⟨front, trees, values, raw, hlaid, hcollected, hcourse, hvalues⟩ := h.insert hv position
    rw [List.length_nil] at hvalues
    rw [hkey, ← hcourse]
    refine ⟨fun hrepeat coming => ?_, .inl ⟨rfl, trees, raw, hcollected, ?_, ?_⟩⟩
    · refine .root hsite hkey ?_
      rw [hvalues]
      exact hcollected.begun hlaid hrepeat
    · obtain rfl := List.map_eq_nil_iff.mp hlaid.elements
      rw [List.nil_append, Cell.course_singleton]
    · have hnone : values = [] := List.eq_nil_of_length_eq_zero hlaid.length
      rw [hvalues, hnone]
      rfl
  | @inner _ _ r' _ _ index q d marks cells first' _ hbelow hseat hd ht hs h hfirst =>
    obtain ⟨front, trees, values, raw, hlaid, hcollected, hcourse, hvalues⟩ := h.insert hv position
    rw [length_take_of_getElem? hd] at hvalues
    have hindex : parent.key.index = index := by rw [hseat.key_eq]
    have hfirst' : (Mark.tokens (Cell.course (front ++ [⟨d, trees, raw⟩]))).head? =
        some first' := by
      rw [hcourse, Mark.tokens_append]
      exact head?_append_of_head? htree hfirst
    rw [hindex, List.append_assoc, List.cons_append, ← hcourse]
    refine ⟨fun hrepeat coming => ?_, .inr ?_⟩
    · refine .inner hbelow (hseat.of_eq rfl rfl) hd ht hs ?_ ?_
      · rw [hvalues]
        exact hcollected.begun hlaid hrepeat
      · rw [List.head?_append, hfirst']
        rfl
    · refine .intro hbelow (hseat.of_eq rfl rfl) ?_ hfirst'
      rw [hvalues, ← take_append_of_getElem? hd]
      exact hlaid.append (laid_singleton (hcollected.sound ht hs))

end Stack

end Parser

end GrammarEngine
