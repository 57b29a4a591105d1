import GrammarEngine.Regex.Match

/-!
# Cursors

A cursor is a position in a line of text. The text in front of it can be replaced, and text can be
added at the end of the line.

Offsets are never negative here. Replacing text is meant for a number of characters that stand in
front of the cursor: `length ≤ pos` is the domain of `splice`. Beyond it, where a negative offset
would be counted from the end of the line, `splice` replaces all that is in front of the cursor,
which stands for nothing in particular.

Main results:

* `splice_rest` — the cursor is put in front of the new text.
* `take_splice`, `drop_splice` — replacing text in front of the cursor leaves what is before
  it and after it.
-/

namespace GrammarEngine

/-- A position in a line. -/
structure Cursor where
  line : List Char
  pos : Nat
deriving DecidableEq, Repr, Inhabited

namespace Cursor

/-- The start of a line. -/
def ofLine (line : List Char) : Cursor := ⟨line, 0⟩

/-- The text from the cursor on. -/
def rest (c : Cursor) : List Char := c.line.drop c.pos

/-- Whether nothing is left at the cursor. -/
def atEnd (c : Cursor) : Bool := decide (c.line.length ≤ c.pos)

/-- The column of the cursor, counted from the last line feed before it. -/
def column (c : Cursor) : Nat :=
  let before := c.line.take c.pos
  let sinceLineFeed := (before.reverse.takeWhile (· != '\n')).length
  c.pos - (before.length - sinceLineFeed) + 1

/-- Matches an expression at the cursor; a match moves the cursor behind it. -/
def matchHere (regex : Regex) (c : Cursor) : Option Match × Cursor :=
  match regex.matchAt c.line c.pos with
  | some m => (some m, { c with pos := m.stop })
  | none => (none, c)

/-- Whether an expression matches at the cursor. -/
def test (regex : Regex) (c : Cursor) : Bool := (regex.matchAt c.line c.pos).isSome

/-- Moves the cursor. -/
def seek (pos : Nat) (c : Cursor) : Cursor := { c with pos := pos }

/-- Replaces the `length` characters in front of the cursor, and puts the cursor in front of the new
text. There have to be as many: `length ≤ c.pos`. -/
def splice (length : Nat) (text : List Char) (c : Cursor) : Cursor :=
  let start := c.pos - length
  ⟨c.line.take start ++ text ++ c.line.drop c.pos, start⟩

/-- Adds text at the end of the line. -/
def append (text : List Char) (c : Cursor) : Cursor := { c with line := c.line ++ text }

/-- The next characters. -/
def peek (count : Nat) (c : Cursor) : List Char := c.rest.take count

/-- The character in front of the cursor. -/
def previous? (c : Cursor) : Option Char := if c.pos = 0 then none else c.line[c.pos - 1]?

theorem splice_line (length : Nat) (text : List Char) (c : Cursor) :
    (c.splice length text).line = c.line.take (c.pos - length) ++ text ++ c.rest := rfl

theorem length_splice (length : Nat) (text : List Char) (c : Cursor) :
    (c.splice length text).line.length =
    min (c.pos - length) c.line.length + text.length + (c.line.length - c.pos) := by
  rw [splice_line, List.length_append, List.length_append, List.length_take, rest, List.length_drop]

theorem splice_rest (length : Nat) (text : List Char) (c : Cursor)
    (h : c.pos - length ≤ c.line.length) : (c.splice length text).rest = text ++ c.rest := by
  have hl : (c.line.take (c.pos - length)).length = c.pos - length := List.length_take_of_le h
  simp only [splice, rest, List.append_assoc]
  rw [List.drop_append, hl]
  simp

/-- In front of the new text the line stays as it was. -/
theorem take_splice (length : Nat) (text : List Char) (c : Cursor) {n : Nat}
    (hn : n ≤ c.pos - length)
    (hline : n ≤ c.line.length) : (c.splice length text).line.take n = c.line.take n := by
  have hbefore : n ≤ (c.line.take (c.pos - length)).length := by
    rw [List.length_take]
    exact Nat.le_min.mpr ⟨hn, hline⟩
  rw [splice_line, List.append_assoc, List.take_append_of_le_length hbefore, List.take_take,
    Nat.min_eq_left hn]

/-- The line up to the end of the new text. -/
theorem take_splice_end (length : Nat) (text : List Char) (c : Cursor)
    (h : c.pos - length ≤ c.line.length) :
    (c.splice length text).line.take (c.pos - length + text.length) =
      c.line.take (c.pos - length) ++ text := by
  have hend : (c.line.take (c.pos - length) ++ text).length = c.pos - length + text.length := by
    rw [List.length_append, List.length_take_of_le h]
  rw [splice_line, ← hend, List.take_left]

/-- Behind the new text stands what stood behind the cursor. -/
theorem drop_splice (length : Nat) (text : List Char) (c : Cursor) (n : Nat) :
    (c.splice length text).line.drop (c.pos - length + text.length + n) =
      c.line.drop (c.pos + n) := by
  rcases Nat.lt_or_ge c.line.length (c.pos - length) with hbeyond | hinside
  · -- where the line ends before the place of the text, nothing stood behind it
    have hlength := c.length_splice length text
    rw [List.drop_eq_nil_of_le (by omega), List.drop_eq_nil_of_le (by omega)]
  · have hrest : (c.splice length text).line.drop (c.pos - length) = text ++ c.rest :=
      splice_rest length text c hinside
    rw [Nat.add_assoc, ← List.drop_drop, hrest, List.drop_append, List.drop_eq_nil_of_le
      (Nat.le_add_right ..), List.nil_append, Nat.add_sub_cancel_left, rest, List.drop_drop]

end Cursor

end GrammarEngine
