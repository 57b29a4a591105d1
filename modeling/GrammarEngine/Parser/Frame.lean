import GrammarEngine.Parser.Script

/-!
# Frames

A parser keeps a frame for every rule it has entered and not yet completed. A frame holds the state
it will go on from, the action of its pattern, and what has been collected for the pattern: a value
and a position for every element, and the position where the pattern began.

Main results:

* `Frame.insert_first` — the position where a pattern began is settled once.
* `Frame.insert_length` — how many slots there are afterwards.
-/

namespace GrammarEngine

/-- A state together with the table it belongs to. -/
structure Site where
  table : Table
  state : State
deriving DecidableEq, Inhabited

/-- The state of a given identity in the same table. -/
def Site.follow? (site : Site) (key : Key) : Option Site :=
  (site.table.find? key).map (⟨site.table, ·⟩)

/-- A rule that has been entered. -/
structure Frame (σ : Type) where
  site : Site
  action : Option (Action σ)
  values : List Value := []
  positions : List (Option Position) := []
  first : Option Position := none

namespace Frame

variable {σ : Type}

/-- The identity of the state of a frame. -/
def key (f : Frame σ) : Key := f.site.state.key

/-- A row with an item at an index, with a filling before it where the row was too short. -/
def setSlot {β : Type} (filling : β) (index : Nat) (item : β) (row : List β) : List β :=
  (row ++ List.replicate (index + 1 - row.length) filling).set index item

/-- Puts a value and its position into a slot. Where there are to be several values they are
collected in a series, and whatever else the slot held is dropped. -/
def insert (index : Nat) (value : Value) (position : Option Position) (several : Bool)
    (f : Frame σ) : Frame σ :=
  let slot :=
    if several then
      match f.values[index]? with
      | some (.series items) => .series (Series.push items value)
      | _ => .series (Series.push [] value)
    else value
  { f with
    values := setSlot .nothing index slot f.values
    positions := setSlot none index position f.positions
    first := f.first.orElse fun _ => position }

/-- A frame in a diagnostic. -/
def render (f : Frame σ) : String := f.key.render ++ " " ++ (Value.list f.values).quoted

theorem length_setSlot {β : Type} (filling : β) (index : Nat) (item : β) (row : List β) :
    (setSlot filling index item row).length = max row.length (index + 1) := by
  simp [setSlot]
  omega

theorem insert_length (index : Nat) (value : Value) (position : Option Position) (several : Bool)
    (f : Frame σ) : (f.insert index value position several).values.length =
      max f.values.length (index + 1) := length_setSlot ..

theorem insert_first {f : Frame σ} {p : Position} (index : Nat) (value : Value)
    (position : Option Position) (several : Bool) (h : f.first = some p) :
    (f.insert index value position several).first = some p := by
  simp [insert, h]

end Frame

end GrammarEngine
