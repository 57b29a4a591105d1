import GrammarEngine.Text.Printable

/-!
# Quoted text

Text is quoted between single quotes, or between double quotes if it holds a single quote and no
double quote. A backslash and the quote in use are written after a backslash, line feed, carriage
return and tab as `n`, `r` and `t` after one, and every other character that is not printable by its
code point in hexadecimal, with two, four or eight digits.

Main results:

* `quoteMark_eq` — which of the two quotes is used.
* `escape_of_isPrintable` — a printable character other than the backslash and the quote
  stands for itself.
-/

namespace GrammarEngine.Text

/-- The quote around a text. -/
def quoteMark (text : List Char) : Char :=
  if text.contains '\'' && !text.contains '"' then '"' else '\''

theorem quoteMark_eq (text : List Char) :
    quoteMark text = '"' ↔ '\'' ∈ text ∧ '"' ∉ text := by
  simp [quoteMark]

/-- A number in hexadecimal with at least `width` digits. -/
def hexadecimal (width n : Nat) : List Char :=
  let digits := Nat.toDigits 16 n
  List.replicate (width - digits.length) '0' ++ digits

/-- The written form of one character between two quotes `mark`. -/
def escape (mark c : Char) : List Char :=
  if c == mark || c == '\\' then ['\\', c]
  else if c == '\n' then ['\\', 'n']
  else if c == '\r' then ['\\', 'r']
  else if c == '\t' then ['\\', 't']
  else if isPrintable c then [c]
  else if c.toNat < 0x100 then '\\' :: 'x' :: hexadecimal 2 c.toNat
  else if c.toNat < 0x10000 then '\\' :: 'u' :: hexadecimal 4 c.toNat
  else '\\' :: 'U' :: hexadecimal 8 c.toNat

theorem escape_of_isPrintable {mark c : Char} (hp : isPrintable c = true) (hm : c ≠ mark)
    (hb : c ≠ '\\') : escape mark c = [c] := by
  have hn : c ≠ '\n' := by rintro rfl; exact absurd hp (by decide)
  have hr : c ≠ '\r' := by rintro rfl; exact absurd hp (by decide)
  have ht : c ≠ '\t' := by rintro rfl; exact absurd hp (by decide)
  simp [escape, hp, hm, hb, hn, hr, ht]

/-- A text between quotes, with its escapes. -/
def quoted (text : String) : String :=
  let chars := text.toList
  let mark := quoteMark chars
  String.ofList (mark :: chars.flatMap (escape mark) ++ [mark])

end GrammarEngine.Text
