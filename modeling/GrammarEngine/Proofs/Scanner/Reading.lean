import Mathlib.Data.List.TakeWhile
import GrammarEngine.Proofs.Regex.Forward
import GrammarEngine.Scanner.Post
import GrammarEngine.Scanner.Scan

/-!
# Reading a text piece by piece

What a scanner makes of a text can be said without a scanner. A reader stands at a place of the
text, in a mode. The first pattern of the mode that matches at that place of its line takes a piece
off the text, and makes a token of it or not. A routine may switch the modes, and nothing else.

The reader knows nothing of lines that are read one by one, of a cursor, or of a cleanup: the line
is all that stands around the place up to the next line feeds, and the position is counted in what
was read before.

Main results:

* `Step.unique` — what is read next is determined by the place.
* `Reads.before_eq`, `Reads.text_eq` — the pieces are what was read of the text, in order.
-/

namespace GrammarEngine

-- ---------------------------------------------------------------------------
-- Lines of a text
-- ---------------------------------------------------------------------------

/-- What stands in the same line in front of a place, of all that stands in front of it. -/
def lineBefore (before : List Char) : List Char := (before.reverse.takeWhile (· != '\n')).reverse

/-- Lines that are complete. -/
def WholeLines (text : List Char) : Prop := text = [] ∨ ∃ front, text = front ++ ['\n']

/-- A line of a text, with what follows it: only the last line may lack its line feed. -/
def IsLine (line rest : List Char) : Prop :=
  ∃ body, '\n' ∉ body ∧ (line = body ++ ['\n'] ∨ (line = body ∧ rest = []))

theorem bne_of_not_mem {text : List Char} (h : '\n' ∉ text) : ∀ c ∈ text, (c != '\n') = true := by
  intro c hc
  rw [bne_iff_ne]
  rintro rfl
  exact h hc

theorem takeWhile_of_not_mem {text rest : List Char} (h : '\n' ∉ text) :
    (text ++ '\n' :: rest).takeWhile (· != '\n') = text := by
  rw [List.takeWhile_append_of_pos (bne_of_not_mem h), List.takeWhile_cons_of_neg (by simp),
    List.append_nil]

/-- The first line of a text is what stands before its first line feed, and the line feed. -/
theorem readLine_append_lineFeed {line : List Char} (h : '\n' ∉ line) (rest : List Char) :
    readLine (line ++ '\n' :: rest) = (line ++ ['\n'], rest) := by
  unfold readLine
  rw [takeWhile_of_not_mem h, List.dropWhile_append_of_pos (bne_of_not_mem h)]
  simp

/-- What stands before the first line feed of a text belongs to its first line. -/
theorem length_le_readLine {text : List Char} (h : '\n' ∉ text) (rest : List Char) :
    text.length ≤ (readLine (text ++ rest)).1.length := by
  unfold readLine
  rw [List.takeWhile_append_of_pos (bne_of_not_mem h), List.append_assoc, List.length_append]
  exact Nat.le_add_right ..

theorem lineBefore_of_not_mem {text : List Char} (h : '\n' ∉ text) : lineBefore text = text := by
  unfold lineBefore
  rw [List.takeWhile_eq_self_iff.mpr (bne_of_not_mem (mt List.mem_reverse.mp h)),
    List.reverse_reverse]

/-- Complete lines do not count. -/
theorem lineBefore_append {lines : List Char} (h : WholeLines lines) (text : List Char) :
    lineBefore (lines ++ text) = lineBefore text := by
  rcases h with rfl | ⟨front, rfl⟩
  · rfl
  · unfold lineBefore
    rw [List.reverse_append, List.reverse_append, List.reverse_singleton, List.singleton_append,
      List.takeWhile_append]
    split
    · next hall =>
      -- there is no line feed in the text
      rw [List.takeWhile_cons_of_neg (by simp), List.append_nil,
        (List.takeWhile_prefix _).eq_of_length hall]
    · rfl

theorem isLine_readLine (text : List Char) : IsLine (readLine text).1 (readLine text).2 := by
  refine ⟨text.takeWhile (· != '\n'), fun hmem => ?_, ?_⟩
  · have hpasses := List.mem_takeWhile_imp hmem
    simp at hpasses
  · unfold readLine
    cases hrest : text.dropWhile (· != '\n') with
    | nil => exact .inr ⟨List.append_nil _, rfl⟩
    | cons c rest =>
      have hc : ¬ (c != '\n') = true := by
        have hhead := List.head_dropWhile_not (· != '\n') (l := text)
          (by rw [hrest]; exact List.cons_ne_nil _ _)
        simp only [hrest, List.head_cons] at hhead
        rw [hhead]
        exact Bool.false_ne_true
      rw [bne_iff_ne, Decidable.not_not] at hc
      exact .inl (by rw [hc]; rfl)

/-- Inside of a line no line feed has been passed, and the rest of the line is the next
line of the rest. -/
theorem IsLine.inside {line rest : List Char} {pos : Nat}
    (h : IsLine line rest) (hpos : pos < line.length) :
    '\n' ∉ line.take pos ∧ (readLine (line.drop pos ++ rest)).1 = line.drop pos := by
  obtain ⟨body, hbody, hline⟩ := h
  have hdrop : '\n' ∉ body.drop pos := fun hmem => hbody (List.mem_of_mem_drop hmem)
  have hle : pos ≤ body.length := by
    rcases hline with rfl | ⟨rfl, -⟩
    · rw [List.length_append, List.length_singleton] at hpos
      exact Nat.le_of_lt_succ hpos
    · exact Nat.le_of_lt hpos
  have htake : line.take pos = body.take pos := by
    rcases hline with rfl | ⟨rfl, -⟩
    · exact List.take_append_of_le_length hle
    · rfl
  refine ⟨?_, ?_⟩
  · rw [htake]
    exact fun hmem => hbody (List.mem_of_mem_take hmem)
  · rcases hline with rfl | ⟨rfl, rfl⟩
    · rw [List.drop_append_of_le_length hle, List.append_assoc, List.singleton_append,
        readLine_append_lineFeed hdrop]
    · rw [List.append_nil]
      unfold readLine
      rw [List.takeWhile_eq_self_iff.mpr (bne_of_not_mem hdrop),
        List.dropWhile_eq_nil_iff.mpr (bne_of_not_mem hdrop)]
      exact List.append_nil _

/-- A line that has a successor is complete. -/
theorem IsLine.whole {line rest : List Char} (h : IsLine line rest) (hrest : rest ≠ []) :
    ∃ body, '\n' ∉ body ∧ line = body ++ ['\n'] := by
  obtain ⟨body, hbody, rfl | ⟨-, hnil⟩⟩ := h
  · exact ⟨body, hbody, rfl⟩
  · exact absurd hnil hrest

-- ---------------------------------------------------------------------------
-- Routines that switch modes
-- ---------------------------------------------------------------------------

namespace Routine

/-- A routine that makes a kind and a value, and may switch modes on the way. -/
def Modal : Routine → Prop
  | .setMode _ rest | .pushMode _ rest | .popMode rest | .note _ rest => rest.Modal
  | .look rest => ∀ position mode, (rest position mode).Modal
  | .fail _ | .done .. => True
  | .inject .. | .includeFile .. | .addMacro .. | .report .. | .pushBack .. => False

/-- What a modal routine makes, in a mode and with modes to return to, and the modes that it leaves.
Modes without patterns are refused, and so is a return without a mode to return to. -/
def switched (lexicon : Lexicon) (position : Position) :
    Routine → Mode → List Mode → Option ((Option String × Value) × Mode × List Mode)
  | .setMode next rest, _, kept =>
    if (lexicon.patterns? next).isSome then rest.switched lexicon position next kept else none
  | .pushMode next rest, mode, kept =>
    if (lexicon.patterns? next).isSome then
      rest.switched lexicon position next (mode :: kept) else none
  | .popMode rest, _, kept =>
    match kept with
    | [] => none
    | next :: below =>
      if (lexicon.patterns? next).isSome then rest.switched lexicon position next below else none
  | .note _ rest, mode, kept => rest.switched lexicon position mode kept
  | .look rest, mode, kept => (rest position mode).switched lexicon position mode kept
  | .done kind value, mode, kept => some ((kind, value), mode, kept)
  | .inject .., _, _ | .includeFile .., _, _ | .addMacro .., _, _ | .report .., _,
    _ | .pushBack .., _, _
  | .fail _, _, _ => none

variable {lexicon : Lexicon} {position : Position} {mode next : Mode} {kept : List Mode}

theorem switched_setMode (rest : Routine) :
    (setMode next rest).switched lexicon position mode kept = if (lexicon.patterns? next).isSome
      then rest.switched lexicon position next kept else none := rfl

theorem switched_pushMode (rest : Routine) :
    (pushMode next rest).switched lexicon position mode kept = if (lexicon.patterns? next).isSome
      then rest.switched lexicon position next (mode :: kept) else none := rfl

theorem switched_popMode_nil (rest : Routine) :
    (popMode rest).switched lexicon position mode [] = none := rfl

theorem switched_popMode_cons (rest : Routine) :
    (popMode rest).switched lexicon position mode (next :: kept) =
    if (lexicon.patterns? next).isSome then
      rest.switched lexicon position next kept else none := rfl

end Routine

namespace Post

/-- The steps that only make a kind and a value, switch modes, or leave a note. -/
def isModal : Post → Bool
  | .toNumber | .group _ | .strip .. | .setValue _ | .setKind _ | .setMode _ | .pushMode
    _ | .popMode | .note _ => true
  | .inject _ | .lookUp _ | .includeFile | .defineMacro | .report .. => false

/-- Routines that are put together from such steps are modal. -/
theorem modal_perform {steps : List Post} (h : ∀ step ∈ steps, step.isModal = true) (m : Match)
    (kind : Option String) (value : Value) : (perform m steps kind value).Modal := by
  induction steps generalizing kind value with
  | nil => exact trivial
  | cons step steps ih =>
    have hrest :=
      fun kind value => ih (fun step hstep => h step (List.mem_cons_of_mem _ hstep)) kind value
    have hstep := h step (List.mem_cons_self ..)
    cases step <;> unfold perform
    case toNumber =>
      split
      · exact hrest _ _
      · split
        · exact hrest _ _
        · exact trivial
      · exact trivial
    case group =>
      split
      · exact hrest _ _
      · exact hrest _ _
      · exact trivial
    case strip =>
      split
      · exact hrest _ _
      · exact trivial
    case setValue | setKind | setMode | pushMode | popMode | note => exact hrest _ _
    case inject | lookUp | includeFile | defineMacro | report => cases hstep

end Post

namespace Lexicon

/-- Patterns whose routines only make kinds and values, and switch modes. -/
def Modal (lexicon : Lexicon) : Prop := ∀ mode, ∀ p ∈ (lexicon.patterns? mode).getD [], ∀ routine,
  p.routine = some routine → ∀ m, (routine m).Modal

/-- A lexicon whose patterns all have routines that are put together from such steps, or none. -/
theorem modal_of_posts {lexicon : Lexicon}
    (h : ∀ entry ∈ lexicon, ∀ p ∈ entry.2, p.routine = none ∨ ∃ steps : List Post,
      (∀ step ∈ steps, step.isModal = true) ∧ p.routine = some (Post.routine p.kind steps)) :
    lexicon.Modal := by
  intro mode p hp routine hroutine m
  obtain ⟨patterns, hpatterns⟩ : ∃ patterns, lexicon.patterns? mode = some patterns := by
    cases hnone : lexicon.patterns? mode with
    | none =>
      rw [hnone] at hp
      cases hp
    | some patterns => exact ⟨patterns, rfl⟩
  rw [hpatterns] at hp
  obtain ⟨before, after, rfl, -⟩ := List.lookup_eq_some_iff.mp hpatterns
  rcases h (mode, patterns) (by simp) p hp with hnone | ⟨steps, hsteps, hsome⟩
  · rw [hnone] at hroutine
    cases hroutine
  · rw [hsome, Option.some.injEq] at hroutine
    rw [← hroutine]
    exact Post.modal_perform hsteps m _ _

-- ---------------------------------------------------------------------------
-- Pieces
-- ---------------------------------------------------------------------------

/-- A place of a text: what was read and what is still to come, and the mode of the reader with the
modes to return to, the latest first. -/
structure Place where
  before : List Char
  after : List Char
  mode : Mode
  kept : List Mode

/-- The beginning of a text. -/
def Place.beginning (text : List Char) (mode : Mode) : Place := ⟨[], text, mode, []⟩

/-- The line around a place. -/
def Place.line (c : Place) : List Char := lineBefore c.before ++ (readLine c.after).1

/-- How far into its line a place is. -/
def Place.offset (c : Place) : Nat := (lineBefore c.before).length

/-- The position of a place: one more than the line feeds in front of it, and one more than the
characters in front of it in its line. -/
def Place.position (name : String) (c : Place) : Position :=
  ⟨name, (1 + c.before.count '\n' : Nat), (1 + c.offset : Nat)⟩

/-- The position that a routine sees: in the same line, behind the text that was matched. -/
def Place.behind (name : String) (text : List Char) (c : Place) : Position :=
  ⟨name, (1 + c.before.count '\n' : Nat), (1 + (lineBefore (c.before ++ text)).length : Nat)⟩

/-- A piece of a text: the mode in which it was read, the pattern and its match, and the token that
was made of it, if any was. -/
structure Piece where
  mode : Mode
  pattern : TokenPattern
  found : Match
  token : Option Token

/-- The text of a piece. -/
def Piece.text (piece : Piece) : List Char := piece.found.text.toList

/-- The first of some patterns that matches at a place of a line. -/
def IsFirst (patterns : List TokenPattern) (line : List Char) (offset : Nat) (p : TokenPattern)
    (m : Match) : Prop :=
  ∃ earlier later, patterns = earlier ++ p :: later ∧
    (∀ q ∈ earlier, q.regex.matchAt line offset = none) ∧ p.regex.matchAt line offset = some m

/-- What is made of a match, in a mode and with modes to return to, and the modes that are left. -/
def made (lexicon : Lexicon) (position : Position) (p : TokenPattern) (m : Match) (mode : Mode)
    (kept : List Mode) : Option ((Option String × Value) × Mode × List Mode) :=
  match p.routine with
  | none => some ((p.kind, .text m.text), mode, kept)
  | some routine => (routine m).switched lexicon position mode kept

/-- A piece is read at a place of an input, and leads to another place. -/
structure Step (lexicon : Lexicon) (name : String) (c : Place) (piece : Piece)
    (c' : Place) : Prop where
  left : c.after ≠ []
  mode : piece.mode = c.mode
  first : IsFirst ((lexicon.patterns? c.mode).getD []) c.line c.offset piece.pattern piece.found
  before : c'.before = c.before ++ piece.text
  after : c.after = piece.text ++ c'.after
  makes : ∃ kind value,
    lexicon.made (c.behind name piece.text) piece.pattern piece.found c.mode c.kept =
      some ((kind, value), c'.mode, c'.kept) ∧
    piece.token = kind.map (⟨·, value, some (c.position name)⟩)

/-- Some pieces are read one after the other. -/
inductive Reads (lexicon : Lexicon) (name : String) : Place → List Piece → Place → Prop
  | nil (c : Place) : Reads lexicon name c [] c
  | cons {c c₁ c' : Place} {piece : Piece} {pieces : List Piece}
      (hstep : Step lexicon name c piece c₁)
      (hrest : Reads lexicon name c₁ pieces c') : Reads lexicon name c (piece :: pieces) c'

variable {lexicon : Lexicon} {name : String} {c c₁ c' c₂ : Place} {piece piece' : Piece}
  {pieces more : List Piece}

theorem IsFirst.unique {patterns : List TokenPattern} {line : List Char} {offset : Nat}
    {p p' : TokenPattern} {m m' : Match} (h : IsFirst patterns line offset p m)
    (h' : IsFirst patterns line offset p' m') : p = p' ∧ m = m' := by
  obtain ⟨earlier, later, rfl, hnone, hmatch⟩ := h
  obtain ⟨earlier', later', heq, hnone', hmatch'⟩ := h'
  rcases List.append_eq_append_iff.mp heq with ⟨between, rfl, hlater⟩ | ⟨between, rfl, hlater⟩
  all_goals
    cases between with
    | nil =>
      obtain ⟨rfl, -⟩ := List.cons.inj hlater
      rw [hmatch, Option.some.injEq] at hmatch'
      exact ⟨rfl, hmatch'⟩
    | cons q between =>
      -- the earlier one of the two would have been passed over
      obtain ⟨rfl, -⟩ := List.cons.inj hlater
      have hmem : ∀ front : List TokenPattern, ∀ q, q ∈ front ++ q :: between :=
        fun _ _ => List.mem_append_right _ (List.mem_cons_self ..)
      first
        | rw [hnone' _ (hmem _ _)] at hmatch
          cases hmatch
        | rw [hnone _ (hmem _ _)] at hmatch'
          cases hmatch'

/-- **What is read next** is determined by the place. -/
theorem Step.unique (h : Step lexicon name c piece c₁) (h' : Step lexicon name c piece' c₂) :
    piece = piece' ∧ c₁ = c₂ := by
  obtain ⟨mode, pattern, found, token⟩ := piece
  obtain ⟨mode', pattern', found', token'⟩ := piece'
  obtain ⟨before₁, after₁, mode₁, kept₁⟩ := c₁
  obtain ⟨before₂, after₂, mode₂, kept₂⟩ := c₂
  obtain ⟨rfl, rfl⟩ := h.first.unique h'.first
  obtain ⟨kind, value, hmade, htoken⟩ := h.makes
  obtain ⟨kind', value', hmade', htoken'⟩ := h'.makes
  have hsame := hmade.symm.trans hmade'
  simp only [Option.some.injEq, Prod.mk.injEq] at hsame
  obtain ⟨⟨rfl, rfl⟩, rfl, rfl⟩ := hsame
  have hbefore := h.before.trans h'.before.symm
  have hafter := List.append_cancel_left (h.after.symm.trans h'.after)
  have hmode := h.mode.trans h'.mode.symm
  simp only at hbefore hafter hmode htoken htoken'
  subst hbefore hafter hmode htoken htoken'
  exact ⟨rfl, rfl⟩

theorem Reads.append (h : Reads lexicon name c pieces c₁) (h' : Reads lexicon name c₁ more c') :
    Reads lexicon name c (pieces ++ more) c' := by
  induction h with
  | nil => exact h'
  | cons hstep _ ih => exact .cons hstep (ih h')

theorem Reads.snoc (h : Reads lexicon name c pieces c₁) (hstep : Step lexicon name c₁ piece c') :
    Reads lexicon name c (pieces ++ [piece]) c' := h.append (.cons hstep (.nil _))

/-- **The pieces** are what has been read since. -/
theorem Reads.before_eq (h : Reads lexicon name c pieces c') :
    c'.before = c.before ++ (pieces.map Piece.text).flatten := by
  induction h with
  | nil => simp
  | cons hstep _ ih =>
    rw [ih, hstep.before, List.map_cons, List.flatten_cons, List.append_assoc]

/-- The text as a whole stays. -/
theorem Reads.text_eq (h : Reads lexicon name c pieces c') :
    c'.before ++ c'.after = c.before ++ c.after := by
  induction h with
  | nil => rfl
  | cons hstep _ ih => rw [ih, hstep.before, hstep.after, List.append_assoc]

/-- **A token** has the position of a place of the text. -/
theorem Reads.position (h : Reads lexicon name c pieces c') {token : Token}
    (htoken : token ∈ pieces.filterMap Piece.token) :
    ∃ place : Place, place.before ++ place.after = c.before ++ c.after ∧
      token.position = some (place.position name) := by
  obtain ⟨piece, hpiece, hmade⟩ := List.mem_filterMap.mp htoken
  induction h with
  | nil => cases hpiece
  | @cons c c₁ _ first pieces hstep hrest ih =>
    rcases List.mem_cons.mp hpiece with rfl | hpiece
    · obtain ⟨kind, value, -, hmakes⟩ := hstep.makes
      rw [hmade] at hmakes
      obtain ⟨kind, rfl, rfl⟩ := Option.map_eq_some_iff.mp hmakes.symm
      exact ⟨c, rfl, rfl⟩
    · obtain ⟨place, htext, hposition⟩ := ih (List.mem_filterMap.mpr ⟨piece, hpiece, hmade⟩) hpiece
      refine ⟨place, htext.trans ?_, hposition⟩
      rw [hstep.before, List.append_assoc, ← hstep.after]

end Lexicon

end GrammarEngine
