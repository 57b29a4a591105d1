import GrammarEngine.Regex.Basic
import GrammarEngine.Text.Decimal

/-!
# The notation of regular expressions

An expression is a list of alternatives between bars; an alternative is a row of items; an item is
an atom with an optional repetition after it. An atom is a character, an escape, a class in
brackets, or an expression in parentheses. Capturing groups are numbered in the order of their
opening parentheses.

The readers below take the text that is left and return what they read with the text after it. Their
first argument bounds the nesting of their calls; the length of the text is always enough.
-/

namespace GrammarEngine.Regex

/-- The characters that a letter stands for after a backslash. -/
def controlEscapes : List (Char × Char) :=
  [('n', '\n'), ('t', '\t'), ('r', '\r'), ('f', '\x0c'), ('v', '\x0b'), ('a', '\x07')]

/-- The classes that a letter stands for after a backslash. -/
def classEscapes : List (Char × Member) :=
  [('d', .digit true), ('D', .digit false), ('w', .word true), ('W', .word false),
    ('s', .blank true), ('S', .blank false)]

/-- The value of a hexadecimal digit. -/
def hexDigit? (c : Char) : Option Nat :=
  if c.isDigit then some (c.toNat - '0'.toNat)
  else if 'a' ≤ c && c ≤ 'f' then some (c.toNat - 'a'.toNat + 10)
  else if 'A' ≤ c && c ≤ 'F' then some (c.toNat - 'A'.toNat + 10)
  else none

/-- Reads the code point of a character in exactly `count` hexadecimal digits. -/
def readHex (count : Nat) (text : List Char) : Option (Char × List Char) := do
  let digits ← (text.take count).mapM hexDigit?
  if digits.length = count then
    some (Char.ofNat (digits.foldl (fun n d => 16 * n + d) 0), text.drop count)
  else none

/-- Reads what follows a backslash where it stands for one character. -/
def readCharEscape : List Char → Option (Char × List Char)
  | [] => none
  | 'x' :: rest => readHex 2 rest
  | 'u' :: rest => readHex 4 rest
  | 'U' :: rest => readHex 8 rest
  | '0' :: rest => some ('\x00', rest)
  | c :: rest =>
    match controlEscapes.lookup c with
    | some control => some (control, rest)
    | none => if c.isAlphanum then none else some (c, rest)

/-! ## Classes -/

/-- Reads one member of a class that is not a range. -/
def readMember : List Char → Option (Member × List Char)
  | [] => none
  | '\\' :: 'b' :: rest => some (.char '\x08', rest)
  | '\\' :: c :: rest =>
    match classEscapes.lookup c with
    | some member => some (member, rest)
    | none => do
      let (d, rest') ← readCharEscape (c :: rest)
      some (.char d, rest')
  | c :: rest => some (.char c, rest)

/-- Reads the members of a class up to its closing bracket. A hyphen between two characters
makes a range. -/
def readMembers : Nat → List Char → List Member → Option (List Member × List Char)
  | 0, _, _ => none
  | n + 1, text, members =>
    match text, members with
    | ']' :: rest, _ :: _ => some (members.reverse, rest)
    | text, members => do
      let (first, rest) ← readMember text
      match rest with
      | '-' :: ']' :: _ => readMembers n rest (first :: members)
      | '-' :: rest' =>
        let (last, rest'') ← readMember rest'
        match first, last with
        | .char a, .char b =>
          if a ≤ b then readMembers n rest'' (.range a b :: members) else none
        | _, _ => none
      | _ => readMembers n rest (first :: members)

/-- Reads a class after its opening bracket. -/
def readClass (text : List Char) : Option (Node × List Char) :=
  match text with
  | '^' :: rest => do
    let (members, rest') ← readMembers (text.length + 1) rest []
    some (.oneOf true members, rest')
  | _ => do
    let (members, rest) ← readMembers (text.length + 1) text []
    some (.oneOf false members, rest)

/-! ## Repetitions -/

/-- The number that leading digits denote, if there are any, and the text after them. -/
def readCount (text : List Char) : Option Nat × List Char :=
  let digits := text.takeWhile Char.isDigit
  (if digits.isEmpty then none else Text.Numeral.ofDecimals? digits, text.dropWhile Char.isDigit)

/-- Reads the bounds of a repetition in braces, after the opening brace. -/
def readBounds (text : List Char) : Option ((Nat × Option Nat) × List Char) :=
  match text with
  | '}' :: _ => none
  | _ =>
    match readCount text with
    | (least, ',' :: rest) =>
      match readCount rest with
      | (most, '}' :: rest') => some ((least.getD 0, most), rest')
      | _ => none
    | (some n, '}' :: rest) => some ((n, some n), rest)
    | _ => none

/-- Reads the bounds of a repetition, if one stands here. -/
def readRepetition : List Char → Option ((Nat × Option Nat) × List Char)
  | '*' :: rest => some ((0, none), rest)
  | '+' :: rest => some ((1, none), rest)
  | '?' :: rest => some ((0, some 1), rest)
  | '{' :: rest => readBounds rest
  | _ => none

/-- Puts the repetition that stands here, if any, around an atom. -/
def readRepeated (atom : Node) (text : List Char) : Node × List Char :=
  match readRepetition text with
  | none => (atom, text)
  | some ((least, most), '?' :: rest) => (.repeated least most true atom, rest)
  | some ((least, most), rest) => (.repeated least most false atom, rest)

/-! ## Expressions -/

/-- What an opening parenthesis opens. -/
inductive Opening where
  | plain
  | capture
  | ahead (positive : Bool)
  | behind (positive : Bool)

/-- Reads what an opening parenthesis opens, after the parenthesis. -/
def readOpening : List Char → Opening × List Char
  | '?' :: ':' :: rest => (.plain, rest)
  | '?' :: '=' :: rest => (.ahead true, rest)
  | '?' :: '!' :: rest => (.ahead false, rest)
  | '?' :: '<' :: '=' :: rest => (.behind true, rest)
  | '?' :: '<' :: '!' :: rest => (.behind false, rest)
  | '?' :: 'P' :: '<' :: rest => (.capture, (rest.dropWhile (· != '>')).drop 1)
  | text => (.capture, text)

/-- The expression that a parenthesis with a given opening stands for. -/
def Opening.close (opening : Opening) (number : Nat) (body : Node) : Option Node :=
  match opening with
  | .plain => some body
  | .capture => some (.group number body)
  | .ahead positive => some (.ahead positive body)
  | .behind positive => body.width?.map (.behind positive · body)

/-- The number of groups that are open or closed once an opening has been read. -/
def Opening.count (opening : Opening) (groups : Nat) : Nat :=
  match opening with
  | .capture => groups + 1
  | _ => groups

/-- Reads an atom that is neither a class nor in parentheses. -/
def readSimple : List Char → Option (Node × List Char)
  | [] => none
  | '.' :: rest => some (.anyChar, rest)
  | '^' :: rest => some (.lineStart, rest)
  | '$' :: rest => some (.lineEnd, rest)
  | '\\' :: 'b' :: rest => some (.wordEdge true, rest)
  | '\\' :: 'B' :: rest => some (.wordEdge false, rest)
  | '\\' :: 'A' :: rest => some (.lineStart, rest)
  | '\\' :: 'Z' :: rest => some (.textEnd, rest)
  | '\\' :: c :: rest =>
    match classEscapes.lookup c with
    | some member => some (.oneOf false [member], rest)
    | none => do
      let (d, rest') ← readCharEscape (c :: rest)
      some (.char d, rest')
  | c :: rest => if c ∈ ['*', '+', '?', '\\'] then none else some (.char c, rest)

mutual

/-- Reads alternatives up to a closing parenthesis or the end; `groups` were opened before. -/
def readAlternatives : Nat → Nat → List Char → Option (Node × Nat × List Char)
  | 0, _, _ => none
  | n + 1, groups, text => do
    let (first, groups', rest) ← readRow n groups text
    match rest with
    | '|' :: rest' =>
      let (second, groups'', rest'') ← readAlternatives n groups' rest'
      some (.alt first second, groups'', rest'')
    | _ => some (first, groups', rest)

/-- Reads a row of items up to a bar, a closing parenthesis or the end. -/
def readRow : Nat → Nat → List Char → Option (Node × Nat × List Char)
  | 0, _, _ => none
  | n + 1, groups, text =>
    match text with
    | [] | '|' :: _ | ')' :: _ => some (.empty, groups, text)
    | '(' :: rest => do
      let (opening, rest') := readOpening rest
      let (body, groups', rest'') ← readAlternatives n (opening.count groups) rest'
      match rest'' with
      | ')' :: after =>
        let (item, after') := readRepeated (← opening.close (groups + 1) body) after
        let (row, groups'', after'') ← readRow n groups' after'
        some (.seq item row, groups'', after'')
      | _ => none
    | '[' :: rest => do
      let (atom, after) ← readClass rest
      let (item, after') := readRepeated atom after
      let (row, groups', after'') ← readRow n groups after'
      some (.seq item row, groups', after'')
    | _ => do
      let (atom, after) ← readSimple text
      let (item, after') := readRepeated atom after
      let (row, groups', after'') ← readRow n groups after'
      some (.seq item row, groups', after'')

end

/-- Reads an expression. -/
def parse? (written : String) (flags : Flags) : Option Regex :=
  let text := written.toList
  match readAlternatives (2 * text.length + 2) 0 text with
  | some (node, groups, []) => some ⟨node, groups, flags⟩
  | _ => none

end GrammarEngine.Regex
