import GrammarEngine.Text.Interval

/-!
# Blanks

A blank is a character that separates words without being seen: the space and the controls that move
the carriage, the four information separators, and the space separators, line and paragraph
separators of every script. Trimming takes blanks off the ends of a text.

Main results:

* `isBlank_of_isWhitespace` — the ASCII whitespace characters are blanks.
* `trimLeft_append_self` — what trimming takes off in front is all blank, and nothing else is lost.
-/

namespace GrammarEngine.Text

/-- The blanks. -/
def blankIntervals : Intervals :=
  [(9, 13), (28, 32), (133, 133), (160, 160), (5760, 5760), (8192, 8202), (8232, 8233),
    (8239, 8239), (8287, 8287), (12288, 12288)]

/-- Whether a character is a blank. -/
def isBlank (c : Char) : Bool := blankIntervals.contains c

theorem isBlank_of_isWhitespace {c : Char} (h : c.isWhitespace = true) : isBlank c = true := by
  simp only [Char.isWhitespace, Bool.or_eq_true, decide_eq_true_eq] at h
  rcases h with ((rfl | rfl) | rfl) | rfl <;> rfl

/-- A text without the characters in front that satisfy `p`. -/
def trimLeft (p : Char → Bool) (text : List Char) : List Char := text.dropWhile p

/-- A text without the characters at its end that satisfy `p`. -/
def trimRight (p : Char → Bool) (text : List Char) : List Char :=
  (text.reverse.dropWhile p).reverse

/-- A text without the characters at both ends that satisfy `p`. -/
def trim (p : Char → Bool) (text : List Char) : List Char := trimRight p (trimLeft p text)

theorem trimLeft_append_self (p : Char → Bool) (text : List Char) :
    text.takeWhile p ++ trimLeft p text = text :=
  List.takeWhile_append_dropWhile

/-- A string without the blanks at its end. -/
def trimBlanksRight (text : String) : String := String.ofList (trimRight isBlank text.toList)

end GrammarEngine.Text
