import GrammarEngine.Text.Blank

/-!
# Decimal digits and numerals

Every script with decimal digits has ten of them in a row, so a table of the zeros gives the value
of every digit. A numeral is read with an optional sign, with single underscores between its digits
and with spaces around it; a numeral of more than `maxDigits` digits is refused.

Main results:

* `digit?_lt` — the value of a digit is below ten.
* `Numeral.ofDigits_append_singleton` — one more digit multiplies by ten and adds.
-/

namespace GrammarEngine.Text

/-- The code points of the zeros of all scripts. -/
def zeros : List Nat :=
  [48, 1632, 1776, 1984, 2406, 2534, 2662, 2790, 2918, 3046, 3174, 3302, 3430, 3558, 3664, 3792,
    3872, 4160, 4240, 6112, 6160, 6470, 6608, 6784, 6800, 6992, 7088, 7232, 7248, 42528, 43216,
    43264, 43472, 43504, 43600, 44016, 65296, 66720, 68912, 69734, 69872, 69942, 70096, 70384,
    70736, 70864, 71248, 71360, 71472, 71904, 72016, 72784, 73040, 73120, 92768, 92864, 93008,
    120782, 120792, 120802, 120812, 120822, 123200, 123632, 125264, 130032]

/-- The value of a decimal digit of any script. -/
def digit? (c : Char) : Option Nat :=
  (zeros.find? fun start => start ≤ c.toNat && c.toNat < start + 10).map (c.toNat - ·)

/-- Whether a character is a decimal digit of any script. -/
def isDecimal (c : Char) : Bool := (digit? c).isSome

theorem digit?_lt {c : Char} {d : Nat} (h : digit? c = some d) : d < 10 := by
  obtain ⟨start, hz, rfl⟩ := Option.map_eq_some_iff.1 h
  have hp := List.find?_some hz
  simp only [Bool.and_eq_true, decide_eq_true_eq] at hp
  omega

namespace Numeral

/-- Longer numerals are refused. -/
def maxDigits : Nat := 4300

/-- The number that a row of digit values denotes. -/
def ofDigits (digits : List Nat) : Nat := digits.foldl (fun n d => 10 * n + d) 0

theorem ofDigits_append_singleton (digits : List Nat) (d : Nat) :
    ofDigits (digits ++ [d]) = 10 * ofDigits digits + d := by
  simp [ofDigits]

/-- The number that a row of decimal digits denotes, unless the row is too long. Other characters
must not occur; they are passed over. -/
def ofDecimals? (text : List Char) : Option Nat :=
  let digits := text.filterMap digit?
  if digits.length ≤ maxDigits then some (ofDigits digits) else none

/-- Takes the underscores out of a row of digits. None may stand first, last or beside another. -/
def dropUnderscores? : List Char → Option (List Char)
  | [] => some []
  | [c] => if isDecimal c then some [c] else none
  | c :: '_' :: rest =>
    if isDecimal c && !rest.isEmpty then (dropUnderscores? rest).map (c :: ·) else none
  | c :: rest => if isDecimal c then (dropUnderscores? rest).map (c :: ·) else none

/-- Around a numeral the ASCII carriage controls and the space are passed over, and the blanks
beyond ASCII. -/
def isPadding (c : Char) : Bool :=
  if c.toNat < 128 then c == ' ' || (9 ≤ c.toNat && c.toNat ≤ 13) else isBlank c

/-- Reads a signed numeral. -/
def toInt? (text : String) : Option Int :=
  let unsigned (digits : List Char) : Option Int :=
    if digits.isEmpty then none
    else ((dropUnderscores? digits).bind ofDecimals?).map Int.ofNat
  match trim isPadding text.toList with
  | '+' :: digits => unsigned digits
  | '-' :: digits => (unsigned digits).map (- ·)
  | digits => unsigned digits

end Numeral

end GrammarEngine.Text
