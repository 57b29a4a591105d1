import GrammarEngine.Proofs.Parser.Branches

/-!
# What the stack of a parse stands for

Between two rounds the stack is a derivation that is being built. Every frame but the innermost one
waits at a reference for an instance of the rule of the frame above it (`Waiting`); the innermost
one has all elements of its pattern filled up to the one where it stands (`Standing`). Both say
which tokens the frames stand for, from the outermost frame to the innermost one.

There are three stages of the slots of a frame. The elements up to the current one are all filled
(`Row`); or the ones in front of it are, and its own slot is untouched (`Ready`), which is how a
pattern goes on after some elements were passed over; or the current element is a reference that
instances are being collected for (`Gathers`).

All this is what is left of the tree that the stack grows if only its tokens are looked at.

Main results:

* `gathers_iff` — what is collected for a rule are trees of it.
* `standing_iff` — a stack stands for the tokens of the tree that it has grown.
-/

namespace GrammarEngine

namespace Grammar

variable {σ : Type} {g : Grammar (Action σ)} {kinds : List String} {before row : List Descriptor}
  {leaves : List Token} {values : List Value} {s : Rule (Action σ)}

/-- A slot holds what will be the value of an element that some tokens fill. -/
def Held (g : Grammar (Action σ)) (kinds : List String) (d : Descriptor) (leaves : List Token)
    (raw : Value) : Prop :=
  ∃ v, Parser.filled g d raw = .ok v ∧ Slot g kinds d leaves v

/-- The slots of a row of elements, all of them filled. -/
inductive Row (g : Grammar (Action σ)) (kinds : List String) :
    List Descriptor → List Token → List Value → Prop
  | nil : Row g kinds [] [] []
  | cons {d : Descriptor} {rest : List Descriptor} {leaves leaves' : List Token} {raw : Value}
      {values : List Value}
      (h : Held g kinds d leaves raw) (hrest : Row g kinds rest leaves' values) :
      Row g kinds (d :: rest) (leaves ++ leaves') (raw :: values)

/-- The slots in front of an element are filled; those of the last elements may not have
been made yet. -/
def Ready (g : Grammar (Action σ)) (kinds : List String) (before : List Descriptor)
    (leaves : List Token) (values : List Value) : Prop :=
  values.length ≤ before.length ∧
    Row g kinds before leaves (Parser.padded .nothing before.length values)

/-- Instances of a rule are being collected for the element behind `before`, if there
are any yet. -/
inductive Gathers (g : Grammar (Action σ)) (kinds : List String) (before : List Descriptor)
    (s : Rule (Action σ)) : List Token → List Value → Prop
  | fresh {leaves : List Token} {values : List Value} (h : Ready g kinds before leaves values) :
      Gathers g kinds before s leaves values
  | begun {leaves leaves' : List Token} {values items : List Value} (hrepeat : s.repeatable = true)
      (h : Row g kinds before leaves values) (hs : Instances g kinds s leaves' items) :
      Gathers g kinds before s (leaves ++ leaves') (values ++ [.series items])

-- ---------------------------------------------------------------------------
-- Slots that trees fill
-- ---------------------------------------------------------------------------

/-- The tokens of some slots, and of more slots behind them. -/
theorem tokens_course_append (cells cells' : List (Cell σ)) :
    Mark.tokens (Cell.course (cells ++ cells')) =
      Mark.tokens (Cell.course cells) ++ Mark.tokens (Cell.course cells') := by
  rw [Cell.course_append, Mark.tokens_append]

/-- A filled row holds trees. -/
theorem row_iff : Row g kinds row leaves values ↔
    ∃ cells, Laid g kinds cells row values ∧ Mark.tokens (Cell.course cells) = leaves := by
  constructor
  · intro h
    induction h with
    | nil => exact ⟨[], laid_nil, rfl⟩
    | @cons d _ _ _ raw _ h _ ih =>
      obtain ⟨v, hv, hslot⟩ := h
      obtain ⟨trees, hfills, rfl⟩ := hslot.exists_fills
      obtain ⟨cells, hlaid, rfl⟩ := ih
      have hsound : (⟨d, trees, raw⟩ : Cell σ).Sound g kinds := ⟨v, hv, hfills⟩
      exact ⟨⟨d, trees, raw⟩ :: cells, (laid_singleton hsound).append hlaid,
        Tree.leavesOf_append _ _⟩
  · rintro ⟨cells, ⟨rfl, rfl, hsound⟩, rfl⟩
    induction cells with
    | nil => exact .nil
    | cons c rest ih =>
      obtain ⟨⟨v, hv, hfills⟩, hrest⟩ := List.forall_mem_cons.mp hsound
      rw [← List.singleton_append, tokens_course_append, Cell.course_singleton]
      exact .cons ⟨v, hv, hfills.slot⟩ (ih hrest)

theorem ready_iff : Ready g kinds before leaves values ↔
    ∃ cells, Prepared g kinds cells before values ∧ Mark.tokens (Cell.course cells) = leaves := by
  unfold Ready Prepared
  rw [row_iff]
  constructor
  · rintro ⟨hle, cells, hlaid, hleaves⟩
    exact ⟨cells, ⟨hle, hlaid⟩, hleaves⟩
  · rintro ⟨cells, ⟨hle, hlaid⟩, hleaves⟩
    exact ⟨hle, cells, hlaid, hleaves⟩

/-- What is collected for a rule are trees of it, for whatever element. -/
theorem gathers_iff (d : Descriptor) : Gathers g kinds before s leaves values ↔
    ∃ cells, Gathering g kinds before d s cells values ∧
        Mark.tokens (Cell.course cells) = leaves := by
  constructor
  · rintro (hready | ⟨hrepeat, hrow, hs⟩)
    · obtain ⟨cells, hprepared, hleaves⟩ := ready_iff.mp hready
      exact ⟨cells, .fresh hprepared, hleaves⟩
    · obtain ⟨cells, hlaid, rfl⟩ := row_iff.mp hrow
      obtain ⟨trees, hderives, rfl⟩ := hs.exists_derives
      refine ⟨_, .begun hrepeat hlaid hderives, ?_⟩
      rw [tokens_course_append, Cell.course_singleton]
      rfl
  · rintro ⟨cells, hprepared | ⟨hrepeat, hlaid, hs⟩, rfl⟩
    · exact .fresh (ready_iff.mpr ⟨_, hprepared, rfl⟩)
    · rw [tokens_course_append, Cell.course_singleton]
      exact .begun hrepeat (row_iff.mpr ⟨_, hlaid, rfl⟩) hs.instances

end Grammar

namespace Parser

open Grammar

variable {σ : Type} {g : Grammar (Action σ)} {kinds : List String} {table : Table}
  {start : Rule (Action σ)}

-- ---------------------------------------------------------------------------
-- The stack
-- ---------------------------------------------------------------------------

/-- `Waiting g kinds table start frames s leaves`: all frames wait, the innermost one for an
instance of `s`, and they stand for the tokens `leaves` so far. The outermost one waits for
the start rule. -/
inductive Waiting (g : Grammar (Action σ)) (kinds : List String) (table : Table)
    (start : Rule (Action σ)) : List (Frame σ) → Rule (Action σ) → List Token → Prop
  | root {f : Frame σ} {leaves : List Token}
      (hsite : Sits table f.site) (hkey : f.key = ⟨start.id, none, 0⟩)
      (h : Gathers g kinds [] start leaves f.values) : Waiting g kinds table start [f] start leaves
  | inner {f : Frame σ} {below : List (Frame σ)} {r s : Rule (Action σ)} {pattern index : Nat}
      {p : Pattern (Action σ)} {d : Descriptor} {leaves leaves' : List Token}
      (hbelow : Waiting g kinds table start below r leaves)
      (hseat : Seat g table f r pattern index p)
      (hd : p.tokens[index]? = some d) (ht : d.isTerminal = false) (hs : g.find? d.name = some s)
      (h : Gathers g kinds (p.tokens.take index) s leaves' f.values) :
      Waiting g kinds table start (f :: below) s (leaves ++ leaves')

/-- The innermost frame has all elements filled up to the one where it stands, and not all of them
are empty; the others wait. -/
inductive Standing (g : Grammar (Action σ)) (kinds : List String) (table : Table)
    (start : Rule (Action σ)) : List (Frame σ) → List Token → Prop
  | intro {f : Frame σ} {below : List (Frame σ)} {r : Rule (Action σ)} {pattern index : Nat}
      {p : Pattern (Action σ)} {leaves leaves' : List Token}
      (hbelow : Waiting g kinds table start below r leaves)
      (hseat : Seat g table f r pattern index p)
      (h : Row g kinds (p.tokens.take (index + 1)) leaves' f.values) (hleaves : leaves' ≠ []) :
      Standing g kinds table start (f :: below) (leaves ++ leaves')

theorem Standing.exists_seat {f : Frame σ} {below : List (Frame σ)} {leaves : List Token}
    (h : Standing g kinds table start (f :: below) leaves) :
    ∃ r pattern index p, Seat g table f r pattern index p := by
  cases h with
  | intro _ hseat _ _ => exact ⟨_, _, _, _, hseat⟩

/-- A stack waits for an instance of a rule, whatever the token is that the instance
will begin with. -/
theorem waiting_iff (coming : Token)
    {frames : List (Frame σ)} {r : Rule (Action σ)} {leaves : List Token} :
    Waiting g kinds table start frames r leaves ↔
      ∃ marks, Growing g kinds table start frames r marks coming ∧ Mark.tokens marks = leaves := by
  constructor
  · intro h
    induction h generalizing coming with
    | root hsite hkey h =>
      obtain ⟨cells, hgathering, hleaves⟩ := (gathers_iff ⟨.reference, start.name⟩).mp h
      exact ⟨_, .root hsite hkey hgathering, hleaves⟩
    | @inner _ _ _ _ _ _ _ d _ _ _ hseat hd ht hs h ih =>
      obtain ⟨cells, hgathering, rfl⟩ := (gathers_iff d).mp h
      -- the frames below wait for the first token of this one
      have hne : Mark.tokens (Cell.course cells) ++ [coming] ≠ [] := by simp
      obtain ⟨marks, hgrowing, rfl⟩ := ih ((Mark.tokens (Cell.course cells) ++ [coming]).head hne)
      exact ⟨_, .inner hgrowing hseat hd ht hs hgathering (List.head?_eq_some_head hne),
        Mark.tokens_append _ _⟩
  · rintro ⟨marks, h, rfl⟩
    induction h with
    | root hsite hkey h => exact .root hsite hkey ((gathers_iff _).mpr ⟨_, h, rfl⟩)
    | inner _ hseat hd ht hs h _ ih =>
      rw [Mark.tokens_append]
      exact .inner ih hseat hd ht hs ((gathers_iff _).mpr ⟨_, h, rfl⟩)

/-- **A stack stands for the tokens of the tree that it has grown.** -/
theorem standing_iff {frames : List (Frame σ)} {leaves : List Token} :
    Standing g kinds table start frames leaves ↔
      ∃ marks, Grown g kinds table start frames marks ∧ Mark.tokens marks = leaves := by
  constructor
  · rintro ⟨hbelow, hseat, hrow, hleaves⟩
    obtain ⟨cells, hlaid, rfl⟩ := row_iff.mp hrow
    obtain ⟨marks, hgrowing, rfl⟩ :=
      (waiting_iff ((Mark.tokens (Cell.course cells)).head hleaves)).mp hbelow
    exact ⟨_, .intro hgrowing hseat hlaid (List.head?_eq_some_head hleaves), Mark.tokens_append _ _⟩
  · rintro ⟨_, ⟨hbelow, hseat, hlaid, hfirst⟩, rfl⟩
    rw [Mark.tokens_append]
    exact .intro ((waiting_iff _).mpr ⟨_, hbelow, rfl⟩) hseat (row_iff.mpr ⟨_, hlaid, rfl⟩)
      (leavesOf_ne_nil_of_head? hfirst)

theorem Standing.below_ne_nil {f : Frame σ} {below : List (Frame σ)} {leaves : List Token}
    (h : Standing g kinds table start (f :: below) leaves) : below ≠ [] := by
  obtain ⟨marks, hgrown, -⟩ := standing_iff.mp h
  exact hgrown.below_ne_nil

end Parser

end GrammarEngine
