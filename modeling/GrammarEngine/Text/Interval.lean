/-!
# Sets of characters given by intervals

The tables of character properties in this library are lists of inclusive intervals of code points.
-/

namespace GrammarEngine.Text

/-- A set of code points, as inclusive intervals. -/
abbrev Intervals := List (Nat × Nat)

/-- Whether the code point of a character lies in one of the intervals. -/
def Intervals.contains (intervals : Intervals) (c : Char) : Bool :=
  intervals.any fun (first, last) => first ≤ c.toNat && c.toNat ≤ last

end GrammarEngine.Text
