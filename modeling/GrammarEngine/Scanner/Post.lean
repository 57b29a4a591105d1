import GrammarEngine.Scanner.Routine

/-!
# Ready-made routines

Most routines do one of a few things after another: they take a group of the match, turn it into a
number, cut its ends off, switch modes, put text in, or report something. This module puts routines
together from such steps, for patterns and for the end of a file.

Main result:

* `Post.routine_nil` — without steps the token is the whole match.
-/

namespace GrammarEngine

/-- A step of a routine of a pattern. -/
inductive Post where
  /-- The value becomes the number that it denotes. -/
  | toNumber
  /-- The value becomes the text of a group. -/
  | group (number : Nat)
  /-- Characters are dropped at both ends of the value. -/
  | strip (front back : Nat)
  | setValue (v : Value)
  | setKind (k : Option String)
  | setMode (mode : Mode)
  | pushMode (mode : Mode)
  | popMode
  /-- A text is put in place of the match. -/
  | inject (text : String)
  /-- The text found under the first group is put in place of the match. -/
  | lookUp (texts : List (String × String))
  /-- The first group names a file to go on with. -/
  | includeFile
  /-- The first group names a macro, and the second is its text. -/
  | defineMacro
  | report (severity : Severity) (id text : String)
  | note (label : String)

namespace Post

/-- The text of a group that took part in a match. -/
def groupText? (m : Match) (number : Nat) : Option String := (m.group? number).join

/-- Drops characters at both ends of a text. -/
def cut (front back : Nat) (text : String) : String :=
  String.ofList ((text.toList.take (text.length - back)).drop front)

/-- Performs steps on a match, starting with a kind and a value. -/
def perform (m : Match) : List Post → Option String → Value → Routine
  | [], kind, value => .done kind value
  | .toNumber :: rest, kind, value =>
    match value with
    | .number n => perform m rest kind (.number n)
    | .text s =>
      match Text.Numeral.toInt? s with
      | some n => perform m rest kind (.number n)
      | none => .fail .badNumeral
    | _ => .fail .wrongType
  | .group number :: rest, kind, _ =>
    match m.group? number with
    | some (some text) => perform m rest kind (.text text)
    | some none => perform m rest kind .nothing
    | none => .fail .outOfRange
  | .strip front back :: rest, kind, value =>
    match value with
    | .text s => perform m rest kind (.text (cut front back s))
    | _ => .fail .wrongType
  | .setValue v :: rest, kind, _ => perform m rest kind v
  | .setKind k :: rest, _, value => perform m rest k value
  | .setMode mode :: rest, kind, value => .setMode mode (perform m rest kind value)
  | .pushMode mode :: rest, kind, value => .pushMode mode (perform m rest kind value)
  | .popMode :: rest, kind, value => .popMode (perform m rest kind value)
  | .inject text :: rest, _, value => .inject text m.text.length (perform m rest none value)
  | .lookUp texts :: rest, _, value =>
    let text := ((groupText? m 1).bind fun name => texts.lookup name).getD ""
    .inject text m.text.length (perform m rest none value)
  | .includeFile :: rest, kind, value =>
    match groupText? m 1 with
    | some name => .includeFile name none .idle fun _ => perform m rest kind value
    | none => .fail .wrongType
  | .defineMacro :: rest, kind, value =>
    match groupText? m 1, groupText? m 2 with
    | some name, some text =>
      .look fun position _ => .addMacro ⟨name, text, some position⟩ (perform m rest kind value)
    | _, _ => .fail .wrongType
  | .report severity id text :: rest, kind, value =>
    .report severity id text none .null (perform m rest kind value)
  | .note label :: rest, kind, value => .note label (perform m rest kind value)

/-- The routine of a pattern with a kind. -/
def routine (kind : Option String) (steps : List Post) (m : Match) : Routine :=
  perform m steps kind (.text m.text)

theorem routine_nil (kind : Option String) (m : Match) :
    routine kind [] m = .done kind (.text m.text) := rfl

end Post

/-- A step of a routine for the end of a file. -/
inductive AtEnd where
  | note (label : String)
  | includeFile (name : String)
  | pushBack (token : Token)
  | setMode (mode : Mode)

/-- The routine that performs steps at the end of a file. -/
def AtEnd.routine : List AtEnd → Routine
  | [] => .idle
  | .note label :: rest => .note label (routine rest)
  | .includeFile name :: rest => .includeFile name none .idle fun _ => routine rest
  | .pushBack token :: rest => .pushBack token (routine rest)
  | .setMode mode :: rest => .setMode mode (routine rest)

end GrammarEngine
