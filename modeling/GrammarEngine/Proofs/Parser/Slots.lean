import GrammarEngine.Parser.Drive
import GrammarEngine.Proofs.Parser.Derivation

/-!
# Putting values into the slots of a frame

While a pattern is read its frame collects values, one slot for each element up to the current
one. The slots are not yet what the action will see: a reference that was left empty is filled in
only in the end.

Main results:

* `filled_terminal`, `filled_nothing`, `filled_single` — what an action will see of a slot.
* `insert_values_of_length_le`, `insert_values_of_series` — a value is put into a new slot, or
  behind those of a series.
-/

namespace GrammarEngine

namespace Grammar

variable {σ : Type} {g : Grammar (Action σ)}

-- ---------------------------------------------------------------------------
-- Single slots
-- ---------------------------------------------------------------------------

theorem filled_terminal {d : Descriptor} (ht : d.isTerminal = true) (v : Value) :
    Parser.filled g d v = .ok v := by
  unfold Parser.filled
  rw [ht, Bool.not_true, Bool.and_false]
  rfl

/-- What an element gets that was passed over. -/
theorem filled_nothing {d : Descriptor} {s : Rule (Action σ)} (ht : d.isTerminal = false)
    (hs : g.find? d.name = some s) :
    Parser.filled g d .nothing = .ok (if s.repeatable then .series [] else .nothing) := by
  unfold Parser.filled
  rw [ht, hs]
  rfl

theorem filled_single {d : Descriptor} {s : Rule (Action σ)} (hs : g.find? d.name = some s)
    (hrepeat : s.repeatable = false) (v : Value) : Parser.filled g d v = .ok v := by
  unfold Parser.filled
  rw [hs]
  simp only [hrepeat, Bool.false_eq_true, if_false, ite_self]

-- ---------------------------------------------------------------------------
-- Elements in front of another one
-- ---------------------------------------------------------------------------

theorem take_append_of_getElem? {κ : Type} {row : List κ} {index : Nat} {x : κ}
    (h : row[index]? = some x) : row.take index ++ [x] = row.take (index + 1) := by
  rw [List.take_add_one, h]
  rfl

theorem length_take_of_getElem? {κ : Type} {row : List κ} {index : Nat} {x : κ}
    (h : row[index]? = some x) : (row.take index).length = index := by
  have := (List.getElem?_eq_some_iff.mp h).1
  rw [List.length_take]
  omega

/-- The elements up to one of them, in front of another one and behind it. -/
theorem take_append_drop_take {κ : Type} {row : List κ} {index next : Nat} (h : index ≤ next) :
    row.take index ++ (row.take next).drop index = row.take next := by
  have hfront : row.take index = (row.take next).take index := by
    rw [List.take_take, Nat.min_eq_left h]
  rw [hfront, List.take_append_drop]

-- ---------------------------------------------------------------------------
-- Putting values in
-- ---------------------------------------------------------------------------

/-- A slot that was not there yet is made, and those in front of it where they are missing. -/
theorem setSlot_of_length_le {filling item : Value} {index : Nat} {row : List Value}
    (h : row.length ≤ index) :
    Frame.setSlot filling index item row = Parser.padded filling index row ++ [item] := by
  have hcount : index + 1 - row.length = (index - row.length) + 1 := by omega
  have hlen : (row ++ List.replicate (index - row.length) filling).length = index := by
    rw [List.length_append, List.length_replicate]
    omega
  rw [Frame.setSlot, Parser.padded, hcount, List.replicate_succ', ← List.append_assoc,
    List.set_append_right _ _ (by omega), hlen, Nat.sub_self]
  rfl

/-- The last slot is overwritten. -/
theorem setSlot_snoc {filling item old : Value} {row : List Value} :
    Frame.setSlot filling row.length item (row ++ [old]) = row ++ [item] := by
  rw [Frame.setSlot, List.length_append, List.length_singleton, Nat.sub_self, List.replicate_zero,
    List.append_nil, List.set_append_right _ _ (Nat.le_refl _), Nat.sub_self]
  rfl

/-- A value that goes into a slot not made yet is the first one there. -/
theorem insert_values_of_length_le {f : Frame σ} {index : Nat}
    (h : f.values.length ≤ index) (v : Value) (position : Option Position) (several : Bool) :
    (f.insert index v position several).values = Parser.padded .nothing index f.values ++
      [if several then .series (Series.push [] v) else v] := by
  have hslot : f.values[index]? = none := List.getElem?_eq_none h
  unfold Frame.insert
  rw [hslot]
  exact setSlot_of_length_le h

/-- A value more goes behind those of a series in the last slot. -/
theorem insert_values_of_series {f : Frame σ} {raws items : List Value}
    (h : f.values = raws ++ [.series items]) (v : Value) (position : Option Position) :
    (f.insert raws.length v position true).values = raws ++ [.series (Series.push items v)] := by
  have hslot : f.values[raws.length]? = some (.series items) := by
    rw [h, List.getElem?_append_right (Nat.le_refl _), Nat.sub_self]
    rfl
  unfold Frame.insert
  rw [hslot, h]
  exact setSlot_snoc

end Grammar

end GrammarEngine
