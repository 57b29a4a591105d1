import GrammarEngine.Regex.Basic
import GrammarEngine.Text.Case
import GrammarEngine.Text.Decimal
import GrammarEngine.Text.Word

/-!
# Matching

An expression is matched from a place in a line on. Of several ways to match, the first one counts:
left alternatives before right ones, and more rounds of a repetition before fewer, or fewer before
more where it is reluctant. A round that consumes nothing is the last one.

The matcher of an expression takes what is to follow as a continuation, and it is defined by
recursion on the expression, so it always ends.

Main results:

* `Focus.ofLine_line`, `Focus.forward_line` — a focus stands in its line, and moving it leaves
  the line as it is.
-/

namespace GrammarEngine.Regex

/-- A place in a line, with the spans of the groups captured so far, the latest first. `before` is
the text in front of the place, the nearest character first. -/
structure Focus where
  before : List Char
  after : List Char
  pos : Nat
  captures : List (Nat × Nat × Nat)

namespace Focus

/-- The place behind the first `pos` characters of a line. -/
def ofLine (line : List Char) (pos : Nat) : Focus :=
  ⟨(line.take pos).reverse, line.drop pos, min pos line.length, []⟩

/-- The line that a focus stands in. -/
def line (f : Focus) : List Char := f.before.reverse ++ f.after

/-- The place one character further on, if there is a character and it passes a test. -/
def forward (test : Char → Bool) (f : Focus) : Option Focus :=
  match f.after with
  | c :: rest =>
    if test c then some { f with before := c :: f.before, after := rest, pos := f.pos + 1 }
    else none
  | [] => none

/-- The place `n` characters back, if there are as many. -/
def back : Nat → Focus → Option Focus
  | 0, f => some f
  | n + 1, f =>
    match f.before with
    | c :: rest => back n { f with before := rest, after := c :: f.after, pos := f.pos - 1 }
    | [] => none

theorem forward_line {test : Char → Bool} {f g : Focus} (h : f.forward test = some g) :
    g.line = f.line := by
  unfold forward at h
  split at h
  · next c rest hf =>
    split at h
    · cases h; simp [line, hf]
    · cases h
  · cases h

theorem ofLine_line (line : List Char) (pos : Nat) : (ofLine line pos).line = line := by
  simp [ofLine, Focus.line]

end Focus

/-! ## Characters and places -/

/-- Whether a character belongs to a member of a class. -/
def Member.test (ignoreCase : Bool) (member : Member) (c : Char) : Bool :=
  match member with
  | .char d => if ignoreCase then Text.sameLetter d c else d == c
  | .range first last =>
    if ignoreCase then
      (List.range (last.toNat + 1 - first.toNat)).any fun k =>
        Text.sameLetter (Char.ofNat (first.toNat + k)) c
    else first ≤ c && c ≤ last
  | .digit positive => Text.isDecimal c == positive
  | .word positive => Text.isWord c == positive
  | .blank positive => Text.isBlank c == positive

/-- The test that an expression for a single character makes. -/
def Node.test? (flags : Flags) : Node → Option (Char → Bool)
  | .char c => some (Member.test flags.ignoreCase (.char c))
  | .anyChar => some fun c => flags.dotAll || c != '\n'
  | .oneOf negated members => some fun c => members.any (·.test flags.ignoreCase c) != negated
  | _ => none

/-- Whether a focus stands between a word character and another character, or at an end
of a word. -/
def Focus.atWordEdge (f : Focus) : Bool :=
  f.before.head?.any Text.isWord != f.after.head?.any Text.isWord

/-- Whether there is any text around a focus. In an empty line there is no edge of a word, and no
place that is none either. -/
def Focus.hasText (f : Focus) : Bool := !(f.before.isEmpty && f.after.isEmpty)

/-! ## The matcher -/

/-- Matches from a place on, and goes on with a continuation. -/
abbrev Matcher := Focus → (Focus → Option Focus) → Option Focus

/-- Exactly `n` rounds. -/
def Matcher.times (body : Matcher) : Nat → Matcher
  | 0, f, k => k f
  | n + 1, f, k => body f fun g => body.times n g k

/-- At most `n` more rounds. -/
def Matcher.upTo (body : Matcher) (reluctant : Bool) : Nat → Matcher
  | 0, f, k => k f
  | n + 1, f, k =>
    let more := fun (_ : Unit) =>
      -- A round that consumed nothing is the last one, or this would never end.
      body f fun g => if g.pos = f.pos then k g else body.upTo reluctant n g k
    if reluctant then (k f).orElse more else (more ()).orElse fun _ => k f

/-- The places reached by passing up to `n` characters that pass a test, the nearest last. -/
def Focus.run (test : Char → Bool) : Nat → Focus → List Focus → List Focus
  | 0, f, acc => f :: acc
  | n + 1, f, acc =>
    match f.forward test with
    | some g => g.run test n (f :: acc)
    | none => f :: acc

/-- A run of between `least` and `most` characters that pass a test. -/
def Matcher.chars (test : Char → Bool) (least : Nat) (most : Option Nat)
    (reluctant : Bool) : Matcher :=
  fun f k =>
    let longestFirst := (f.run test (most.getD f.after.length) []).filter (f.pos + least ≤ ·.pos)
    (if reluctant then longestFirst.reverse else longestFirst).findSome? k

/-- The matcher of an expression. -/
def Node.matcher (flags : Flags) : Node → Matcher
  | .empty => fun f k => k f
  | .char c => fun f k => (f.forward (Member.test flags.ignoreCase (.char c))).bind k
  | .anyChar => fun f k => (f.forward fun c => flags.dotAll || c != '\n').bind k
  | .oneOf negated members => fun f k =>
    (f.forward fun c => members.any (·.test flags.ignoreCase c) != negated).bind k
  | .seq a b => fun f k => a.matcher flags f fun g => b.matcher flags g k
  | .alt a b => fun f k => (a.matcher flags f k).orElse fun _ => b.matcher flags f k
  | .group number body => fun f k =>
    body.matcher flags f fun g => k { g with captures := (number, f.pos, g.pos) :: g.captures }
  | .repeated least most reluctant body =>
    match body.test? flags with
    -- A run of single characters needs no continuation for each of them.
    | some test => Matcher.chars test least most reluctant
    | none => fun f k =>
      Matcher.times (body.matcher flags) least f fun g =>
        -- Each further round consumes something, so the text that is left bounds their number.
        let rounds := match most with
          | some m => m - least
          | none => g.after.length + 1
        Matcher.upTo (body.matcher flags) reluctant rounds g k
  | .lineStart => fun f k => if f.before.isEmpty then k f else none
  | .lineEnd => fun f k => if f.after = [] ∨ f.after = ['\n'] then k f else none
  | .textEnd => fun f k => if f.after.isEmpty then k f else none
  | .wordEdge positive => fun f k =>
    if f.hasText && f.atWordEdge == positive then k f else none
  | .ahead positive body => fun f k =>
    match body.matcher flags f some with
    | some g => if positive then k { f with captures := g.captures } else none
    | none => if positive then none else k f
  | .behind positive width body => fun f k =>
    match (f.back width).bind fun b => body.matcher flags b some with
    | some g => if positive then k { f with captures := g.captures } else none
    | none => if positive then none else k f

end GrammarEngine.Regex

namespace GrammarEngine

/-- A match: where it starts and stops in its line, its text, and the texts of the capturing groups.
A group that took no part has no text. -/
structure Match where
  start : Nat
  stop : Nat
  text : String
  groups : List (Option String)
deriving DecidableEq, Repr

/-- The text of a group; group 0 is the whole match. The outer option says whether there is
such a group. -/
def Match.group? (m : Match) (number : Nat) : Option (Option String) :=
  match number with
  | 0 => some (some m.text)
  | n + 1 => m.groups[n]?

/-- The part of a line from one place up to another. -/
def slice (line : List Char) (start stop : Nat) : String :=
  String.ofList ((line.take stop).drop start)

/-- Matches an expression from a place of a line on. -/
def Regex.matchFrom (regex : Regex) (focus : Regex.Focus) : Option Match :=
  (regex.node.matcher regex.flags focus some).map fun g =>
    { start := focus.pos
      stop := g.pos
      text := slice focus.line focus.pos g.pos
      groups := (List.range regex.groups).map fun n =>
        (g.captures.lookup (n + 1)).map fun (i, j) => slice focus.line i j }

/-- Matches an expression at a place of a line; a place beyond the end counts as the end. -/
def Regex.matchAt (regex : Regex) (line : List Char) (pos : Nat) : Option Match :=
  regex.matchFrom (Regex.Focus.ofLine line pos)

end GrammarEngine
