import GrammarEngine.Text.Word
import GrammarEngine.Text.Blank

/-!
# Macro calls

A macro call begins with a dollar sign and a brace that have no dollar sign in front, and ends with
the closing brace. In between stand the name of the macro and its arguments, with blanks between
them. An argument is a bare word, or any text between double quotes in which a backslash takes the
next character as it is.

Main result:

* `Call.readArguments_nil` — without a closing brace there is no call.
-/

namespace GrammarEngine

/-- A macro call as it stands in a line: its name as written, its arguments, and the number of its
characters. -/
structure Call where
  name : String
  args : List String
  length : Nat
deriving DecidableEq, Repr

namespace Call

/-- Whether a call may begin with a text, given the character in front of it. -/
def startsWith (previous : Option Char) (text : List Char) : Bool :=
  match text with
  | '$' :: '{' :: _ => previous != some '$'
  | _ => false

/-- Where the first call begins in a text, at the beginning or up to `count` characters
further on. -/
def findStart? (previous : Option Char) (text : List Char) (count : Nat) : Option Nat :=
  if startsWith previous text then some 0
  else match text, count with
    | c :: rest, n + 1 => (findStart? (some c) rest n).map (· + 1)
    | _, _ => none

/-- Where a reader of arguments stands: between arguments, after a blank or not; in a bare word; in
quotes; or behind a backslash in quotes. Words are held with the latest character first. -/
inductive Place where
  | gap (afterBlank : Bool)
  | bare (word : List Char)
  | quotes (word : List Char)
  | backslash (word : List Char)

/-- Reads the arguments of a call up to the closing brace, and returns the text after it. `args` are
the arguments read so far, the latest first. -/
def readArguments : Place → List String → List Char → Option (List String × List Char)
  | _, _, [] => none
  | .gap afterBlank, args, c :: rest =>
    -- A call may end here, with or without blanks before the brace.
    if c = '}' then some (args.reverse, rest)
    else if Text.isBlank c then readArguments (.gap true) args rest
    else if !afterBlank then none
    else if c = '"' then readArguments (.quotes []) args rest
    else readArguments (.bare [c]) args rest
  | .bare word, args, c :: rest =>
    if c = '}' then some ((String.ofList word.reverse :: args).reverse, rest)
    else if Text.isBlank c then readArguments (.gap true) (String.ofList word.reverse :: args) rest
    else if c = '"' then none
    else readArguments (.bare (c :: word)) args rest
  | .quotes word, args, c :: rest =>
    if c = '"' then readArguments (.gap false) (String.ofList word.reverse :: args) rest
    else if c = '\\' then readArguments (.backslash word) args rest
    else readArguments (.quotes (c :: word)) args rest
  | .backslash word, args, c :: rest =>
    -- Every character but a line feed may stand behind a backslash.
    if c = '\n' then none else readArguments (.quotes (c :: word)) args rest

/-- Whether a name can begin with a character. -/
def isNameStart (c : Char) : Bool := c.isAlpha || c == '_'

/-- Whether a name can go on with a character. -/
def isNamePart (c : Char) : Bool := Text.isWord c || c == '.'

/-- Reads the name of a call, with the question mark that may stand in front. -/
def readName (text : List Char) : Option (List Char × List Char) :=
  let (mark, rest) := match text with
    | '?' :: rest => (['?'], rest)
    | _ => ([], text)
  match rest with
  | c :: tail =>
    if isNameStart c then
      some (mark ++ c :: tail.takeWhile isNamePart, tail.dropWhile isNamePart)
    else none
  | [] => none

/-- Reads the call that a text begins with. -/
def read? (text : List Char) : Option Call :=
  match text with
  | '$' :: '{' :: inside => do
    let (name, rest) ← readName (inside.dropWhile Text.isBlank)
    let (args, after) ← readArguments (.gap false) [] rest
    some ⟨String.ofList name, args, text.length - after.length⟩
  | _ => none

theorem readArguments_nil (place : Place) (args : List String) :
    readArguments place args [] = none := by
  cases place <;> rfl

end Call

end GrammarEngine
