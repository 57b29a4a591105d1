import GrammarEngine.Macro.Table

/-!
# What a macro call is replaced by

A template can be read once, from left to right, as escapes, placeholders and plain characters. The
text of a macro is made in two passes: the placeholders are filled in first, and then the escapes of
the whole result are undone. So an escape in an argument is undone like one of the template, and so
is an escape that an argument forms with its neighbours.

Main results:

* `Template.fill_eq` — the first pass puts the values in the places of the placeholders,
  and nothing else.
* `Template.unescape_filled_iff` — the second pass undoes the escapes of the template, and nothing
  else, exactly if the values bring no further ones; values without a dollar sign bring none
  (`Template.escapes_filled_of_no_dollar`).
* `MacroTable.resolve_defined` — what the call of a defined macro returns, and when that is the
  template read once.
-/

namespace GrammarEngine

namespace Template

/-! ## The pieces of a template -/

/-- A part of a template: an escaped dollar sign with its brace, a placeholder, or any
other character. -/
inductive Piece where
  | escape
  | placeholder (digits : List Char)
  | plain (c : Char)
deriving DecidableEq, Repr

namespace Piece

/-- How a piece is written. -/
def written : Piece → List Char
  | escape => ['$', '$', '{']
  | placeholder digits => '$' :: '{' :: digits ++ ['}']
  | plain c => [c]

/-- Whether a number that a piece holds can be read. -/
def Readable : Piece → Prop
  | placeholder digits => (Text.Numeral.ofDecimals? digits).isSome
  | _ => True

instance : DecidablePred Readable := fun p =>
  match p with
  | placeholder digits => inferInstanceAs (Decidable ((Text.Numeral.ofDecimals? digits).isSome))
  | escape => inferInstanceAs (Decidable True)
  | plain _ => inferInstanceAs (Decidable True)

/-- What stands for a placeholder: the value of its number, or the placeholder itself if
there is none. -/
def value (values : List (List Char)) (digits : List Char) : List Char :=
  ((Text.Numeral.ofDecimals? digits).bind (values[·]?)).getD (placeholder digits).written

/-- What a piece contributes to the result when the template is read once. -/
def contribution (values : List (List Char)) : Piece → List Char
  | escape => ['$', '{']
  | placeholder digits => value values digits
  | plain c => [c]

/-- What the first pass makes of a piece: the escapes are left for the second. -/
def filled (values : List (List Char)) : Piece → List Char
  | escape => ['$', '$', '{']
  | placeholder digits => value values digits
  | plain c => [c]

end Piece

/-- Reads a template once, from left to right. -/
def pieces : List Char → List Piece
  | [] => []
  | '$' :: '$' :: '{' :: rest => .escape :: pieces rest
  | c :: rest =>
    match placeholder? (c :: rest) with
    | some digits => .placeholder digits :: pieces (rest.drop (digits.length + 2))
    | none => .plain c :: pieces rest
termination_by text => text.length

variable {values : List (List Char)} {text rest s t digits : List Char} {c : Char} {ps : List Piece}

/-- A placeholder begins with a dollar sign and a brace, and its digits are no dollar signs. -/
theorem placeholder?_cons (h : placeholder? (c :: rest) = some digits) :
    c = '$' ∧ rest = '{' :: (digits ++ '}' :: rest.drop (digits.length + 2)) ∧ '$' ∉ digits := by
  unfold placeholder? at h
  split at h
  · next after heq =>
    obtain ⟨rfl, rfl⟩ := List.cons.inj heq
    simp only at h
    split at h
    · next behind hbehind =>
      split at h
      · cases h
      · obtain rfl := Option.some.inj h
        have hafter : after = after.takeWhile Text.isDecimal ++ '}' :: behind := by
          rw [← hbehind, List.takeWhile_append_dropWhile]
        refine ⟨rfl, ?_, fun hmem => ?_⟩
        · generalize after.takeWhile Text.isDecimal = digits at hafter
          subst hafter
          simp
        · have hdollar := List.all_eq_true.mp List.all_takeWhile _ hmem
          exact absurd hdollar (by decide)
    · cases h
  · cases h

/-- Where a placeholder begins, it is the first piece. -/
theorem pieces_placeholder (h : placeholder? (c :: rest) = some digits) :
    pieces (c :: rest) = .placeholder digits :: pieces (rest.drop (digits.length + 2)) := by
  obtain ⟨-, hrest, -⟩ := placeholder?_cons h
  rw [pieces.eq_3 _ _ (by rintro after - rfl; cases hrest), h]

/-- Where none begins, and no escape, the first piece is a plain character. -/
theorem pieces_plain (hescape : ¬ ['$', '$', '{'] <+: c :: rest)
    (h : placeholder? (c :: rest) = none) : pieces (c :: rest) = .plain c :: pieces rest := by
  rw [pieces.eq_3 _ _ (by rintro after rfl rfl; exact hescape ⟨after, rfl⟩), h]

/-- Reading a template step by step: an escape, a placeholder or a plain character, and
what follows. -/
@[elab_as_elim]
theorem pieces_induction {motive : List Char → Prop} (nil : motive [])
    (escape : ∀ rest, motive rest → motive ('$' :: '$' :: '{' :: rest))
    (placeholder : ∀ digits rest, '$' ∉ digits →
      placeholder? ('$' :: '{' :: (digits ++ '}' :: rest)) = some digits →
      pieces ('$' :: '{' :: (digits ++ '}' :: rest)) = .placeholder digits :: pieces rest →
      motive rest → motive ('$' :: '{' :: (digits ++ '}' :: rest)))
    (plain : ∀ c rest, ¬ ['$', '$', '{'] <+: c :: rest → placeholder? (c :: rest) = none →
      motive rest → motive (c :: rest)) (text : List Char) : motive text := by
  induction text using pieces.induct with
  | case1 => exact nil
  | case2 rest ih => exact escape rest ih
  | case3 c rest hescape digits hdigits ih =>
    obtain ⟨rfl, hrest, hdollar⟩ := placeholder?_cons hdigits
    have hpieces := pieces_placeholder hdigits
    generalize rest.drop (digits.length + 2) = after at hrest hpieces ih
    subst hrest
    exact placeholder digits after hdollar hdigits hpieces ih
  | case4 c rest hescape hplain ih =>
    exact plain c rest (fun ⟨after, h⟩ => by cases h; exact hescape after rfl rfl) hplain ih

/-- The pieces of a template, one behind the other, are the template. -/
theorem flatMap_written_pieces (text : List Char) : (pieces text).flatMap Piece.written = text := by
  induction text using pieces_induction with
  | nil => simp [pieces]
  | escape rest ih => simp [pieces, Piece.written, ih]
  | placeholder digits rest _ hdigits hpieces ih => simp [hpieces, Piece.written, ih]
  | plain c rest hescape hplain ih => simp [pieces_plain hescape hplain, Piece.written, ih]

/-! ## The first pass -/

/-- What a placeholder was made of is skipped. -/
private theorem fill_skip (t : List Char) (escaped : Bool) :
    fill values escaped (t.length + 1) (t ++ c :: rest) = fill values (c == '$') 0 rest := by
  induction t generalizing escaped with
  | nil => simp [fill]
  | cons d t ih => exact ih (d == '$')

/-- A character is kept behind a dollar sign, and where no placeholder begins. -/
private theorem fill_plain {escaped : Bool} (h : escaped = true ∨ placeholder? (c :: rest) = none) :
    fill values escaped 0 (c :: rest) = (fill values (c == '$') 0 rest).map (c :: ·) := by
  obtain rfl | h := h
  · simp [fill]
  · simp [fill, h]

/-- A placeholder is filled in, if its number can be read. -/
private theorem fill_placeholder
    (h : placeholder? ('$' :: '{' :: (digits ++ '}' :: rest)) = some digits) :
    fill values false 0 ('$' :: '{' :: (digits ++ '}' :: rest)) =
      (Text.Numeral.ofDecimals? digits).bind fun _ =>
        (fill values false 0 rest).map (Piece.value values digits ++ ·) := by
  have hskip : fill values true (digits.length + 2) ('{' :: (digits ++ '}' :: rest)) =
      fill values false 0 rest :=
    fill_skip ('{' :: digits) true
  rw [fill]
  cases hindex : Text.Numeral.ofDecimals? digits with
  | none => simp [h, hindex]
  | some index =>
    cases hrest : fill values false 0 rest <;>
      simp [h, hindex, hskip, hrest, Piece.value, Piece.written]

-- A piece whose number can be read is put in front of what the others become.
/-- A further piece is filled in if it can be read. -/
private theorem filled_cons (p : Piece) (h : p.Readable) :
    (if ∀ q ∈ p :: ps, q.Readable then some ((p :: ps).flatMap (·.filled values)) else none) =
      (if ∀ q ∈ ps, q.Readable then some (ps.flatMap (·.filled values)) else none).map
        (p.filled values ++ ·) := by
  by_cases hps : ∀ q ∈ ps, q.Readable
  · rw [if_pos hps, if_pos (List.forall_mem_cons.2 ⟨h, hps⟩)]
    rfl
  · rw [if_neg hps, if_neg fun hall => hps (List.forall_mem_cons.1 hall).2]
    rfl

-- The flag stands for a dollar sign in front. A piece that ends in one is not followed by a dollar
-- sign and a brace, since the three would be an escape.
/-- **The first pass** fills in the pieces, also behind a dollar sign that does not escape
anything. -/
private theorem fill_pieces {escaped : Bool} (h : escaped = true → ¬ ['$', '{'] <+: text) :
    fill values escaped 0 text =
      if ∀ p ∈ pieces text, p.Readable then
        some ((pieces text).flatMap (·.filled values)) else none := by
  induction text using pieces_induction generalizing escaped with
  | nil => simp [fill, pieces]
  | escape rest ih =>
    have hfill : fill values escaped 0 ('$' :: '$' :: '{' :: rest) =
        (fill values false 0 rest).map (Piece.escape.filled values ++ ·) := by
      rw [fill_plain (.inr rfl), show ('$' == '$') = true from rfl, fill_plain (.inl rfl),
        fill_plain (.inr rfl), Option.map_map, Option.map_map]
      rfl
    have hrest : fill values false 0 rest = _ := ih fun h => absurd h Bool.false_ne_true
    rw [hfill, hrest, pieces, filled_cons .escape trivial]
  | placeholder digits rest _ hdigits hpieces ih =>
    obtain rfl : escaped = false := by
      cases escaped with
      | false => rfl
      | true => exact absurd ⟨_, rfl⟩ (h rfl)
    have hrest : fill values false 0 rest = _ := ih fun h => absurd h Bool.false_ne_true
    rw [fill_placeholder hdigits, hrest, hpieces]
    cases hindex : Text.Numeral.ofDecimals? digits with
    | none => simp [Piece.Readable, hindex]
    | some index => rw [filled_cons (.placeholder digits) (by simp [Piece.Readable, hindex])]; rfl
  | plain c rest hescape hplain ih =>
    have hnext : (c == '$') = true → ¬ ['$', '{'] <+: rest := fun hc hrest =>
      hescape (List.cons_prefix_cons.2 ⟨(beq_iff_eq.1 hc).symm, hrest⟩)
    rw [fill_plain (.inr hplain), ih hnext, pieces_plain hescape hplain,
      filled_cons (.plain c) trivial]
    rfl

/-- The first pass puts the values in the places of the placeholders, as they are, and keeps all
other pieces. It fails if the number of a placeholder cannot be read. -/
theorem fill_eq (values : List (List Char)) (text : List Char) :
    fill values false 0 text = if ∀ p ∈ pieces text, p.Readable then
        some ((pieces text).flatMap (·.filled values)) else none :=
  fill_pieces nofun

/-! ## The second pass -/

/-- The number of places where a text holds an escape. -/
def escapes : List Char → Nat
  | [] => 0
  | c :: rest => (if ['$', '$', '{'] <+: c :: rest then 1 else 0) + escapes rest

/-- The second pass drops the dollar sign of an escape, and keeps any other character. -/
theorem unescape_cons (c : Char) (rest : List Char) :
    unescape (c :: rest) = if ['$', '$', '{'] <+: c :: rest then unescape rest else
      c :: unescape rest := by
  split
  · next h =>
    obtain ⟨after, h⟩ := h
    cases h
    simp [unescape]
  · next h => exact unescape.eq_2 c rest fun after hc hrest => h ⟨after, by rw [hc, hrest]; rfl⟩

/-- A character that begins no escape is not counted. -/
theorem escapes_cons_of_not (h : ¬ ['$', '$', '{'] <+: c :: rest) :
    escapes (c :: rest) = escapes rest := by
  rw [escapes, if_neg h, Nat.zero_add]

/-- Every escape that is undone shortens the text by a dollar sign. -/
theorem length_unescape (s : List Char) : (unescape s).length + escapes s = s.length := by
  induction s with
  | nil => rfl
  | cons c rest ih =>
    rw [unescape_cons, escapes]
    split <;> simp only [List.length_cons] <;> omega

/-- A text without escapes stays as it is. -/
theorem unescape_of_escapes_eq_zero (h : escapes s = 0) : unescape s = s := by
  induction s with
  | nil => rfl
  | cons c rest ih =>
    rw [escapes] at h
    rw [unescape_cons]
    split at h
    · omega
    · next hc => rw [if_neg hc, ih (by omega)]

/-- Putting texts together takes no escape away. -/
theorem escapes_append_le (s t : List Char) : escapes s + escapes t ≤ escapes (s ++ t) := by
  induction s with
  | nil => simp [escapes]
  | cons c s ih =>
    have hgrow : ['$', '$', '{'] <+: c :: s → ['$', '$', '{'] <+: c :: (s ++ t) :=
      fun h => h.trans (List.prefix_append (c :: s) t)
    rw [List.cons_append, escapes, escapes]
    split <;> split <;> first | omega | exact absurd (hgrow ‹_›) ‹_›

/-- Where no escape arises at the seam, two texts can be unescaped apart. -/
theorem unescape_append (h : escapes (s ++ t) = escapes s + escapes t) :
    unescape (s ++ t) = unescape s ++ unescape t := by
  induction s with
  | nil => simp [unescape]
  | cons c s ih =>
    have hle := escapes_append_le s t
    have hgrow : ['$', '$', '{'] <+: c :: s → ['$', '$', '{'] <+: c :: (s ++ t) :=
      fun h => h.trans (List.prefix_append (c :: s) t)
    rw [List.cons_append, escapes, escapes] at h
    rw [List.cons_append, unescape_cons, unescape_cons]
    by_cases hs : ['$', '$', '{'] <+: c :: s
    · rw [if_pos (hgrow hs), if_pos hs] at h
      rw [if_pos (hgrow hs), if_pos hs, ih (by omega)]
    · rw [if_neg hs] at h
      split at h
      · omega
      · next hst => rw [if_neg hst, if_neg hs, ih (by omega)]; rfl

/-! ## Both passes -/

namespace Piece

/-- The escape of a template is still there after the first pass. -/
theorem escapes_filled (values : List (List Char)) (p : Piece) :
    (if p = escape then 1 else 0) ≤ escapes (p.filled values) := by
  split
  · next h => rw [h]; exact Nat.le_refl 1
  · exact Nat.zero_le _

/-- If it is the only one there, the piece contributes what it should. -/
theorem unescape_filled {p : Piece} (h : escapes (p.filled values) = if p = escape then 1 else 0) :
    unescape (p.filled values) = p.contribution values := by
  cases p with
  | escape => rfl
  | placeholder digits => exact unescape_of_escapes_eq_zero h
  | plain c => exact unescape_of_escapes_eq_zero h

/-- An escape is longer by one before it is undone. -/
theorem length_filled (values : List (List Char)) (p : Piece) :
    (p.filled values).length = (p.contribution values).length + if p = escape then 1 else 0 := by
  cases p <;> rfl

end Piece

/-- The escapes of a template, piece by piece. -/
private theorem count_cons (p : Piece) (ps : List Piece) :
    (p :: ps).count .escape = ps.count .escape + if p = .escape then 1 else 0 := by
  simp [List.count_cons]

/-- All of them are still there after the first pass. -/
theorem count_le_escapes_filled (values : List (List Char)) (ps : List Piece) :
    ps.count .escape ≤ escapes (ps.flatMap (·.filled values)) := by
  induction ps with
  | nil => exact Nat.le_refl 0
  | cons p ps ih =>
    have hp := p.escapes_filled values
    have hseam := escapes_append_le (p.filled values) (ps.flatMap (·.filled values))
    rw [count_cons, List.flatMap_cons]
    omega

/-- So the result of the first pass is longer by their number. -/
theorem length_flatMap_filled (values : List (List Char)) (ps : List Piece) :
    (ps.flatMap (·.filled values)).length =
      (ps.flatMap (·.contribution values)).length + ps.count .escape := by
  induction ps with
  | nil => rfl
  | cons p ps ih =>
    have hp := p.length_filled values
    rw [count_cons]
    simp only [List.flatMap_cons, List.length_append]
    omega

/-- The second pass undoes the escapes of the template, and nothing else, exactly if the values hold
none and form none with their neighbours. -/
theorem unescape_filled_iff (values : List (List Char)) (ps : List Piece) :
    unescape (ps.flatMap (·.filled values)) = ps.flatMap (·.contribution values) ↔
      escapes (ps.flatMap (·.filled values)) = ps.count .escape := by
  constructor
  · intro h
    have hshort := length_unescape (ps.flatMap (·.filled values))
    have hlength := length_flatMap_filled values ps
    rw [h] at hshort
    omega
  · intro h
    induction ps with
    | nil => rfl
    | cons p ps ih =>
      have hp := p.escapes_filled values
      have hps := count_le_escapes_filled values ps
      have hseam := escapes_append_le (p.filled values) (ps.flatMap (·.filled values))
      rw [count_cons, List.flatMap_cons] at h
      rw [List.flatMap_cons, List.flatMap_cons, unescape_append (by omega),
        Piece.unescape_filled (by omega), ih (by omega)]

/-! ## Values without a dollar sign -/

/-- A text without a dollar sign has no part in an escape. -/
theorem escapes_append_of_no_dollar (h : '$' ∉ s) : escapes (s ++ t) = escapes t := by
  induction s with
  | nil => rfl
  | cons c s ih =>
    have hc : ¬ ['$', '$', '{'] <+: c :: (s ++ t) := fun hpre =>
      h (List.mem_cons.2 (.inl (List.cons_prefix_cons.1 hpre).1))
    rw [List.cons_append, escapes_cons_of_not hc, ih fun hs => h (List.mem_cons_of_mem _ hs)]

-- A brace in front of all else is one of the template, unless a placeholder is filled in there.
/-- If no placeholder opens a template, a brace in front of its filled pieces is its own. -/
private theorem brace_of_filled (htext : ¬ ['$', '{'] <+: text)
    (h : ['{'] <+: (pieces text).flatMap (·.filled values)) : ['{'] <+: text := by
  induction text using pieces_induction with
  | nil => simp [pieces] at h
  | escape rest => simp [pieces, Piece.filled] at h
  | placeholder digits rest => exact absurd ⟨_, rfl⟩ htext
  | plain c rest hescape hplain => simpa [pieces_plain hescape hplain, Piece.filled] using h

/-- A placeholder that opens behind the first pass was opened by the template. -/
private theorem opening_of_filled (h : ['$', '{'] <+: (pieces text).flatMap (·.filled values)) :
    ['$', '{'] <+: text := by
  induction text using pieces_induction with
  | nil => simp [pieces] at h
  | escape rest => simp [pieces, Piece.filled] at h
  | placeholder digits rest => exact ⟨_, rfl⟩
  | plain c rest hescape hplain =>
    obtain ⟨rfl, hbrace⟩ : '$' = c ∧ ['{'] <+: (pieces rest).flatMap (·.filled values) := by
      simpa [pieces_plain hescape hplain, Piece.filled] using h
    have hrest : ¬ ['$', '{'] <+: rest :=
      fun hrest => hescape (List.cons_prefix_cons.2 ⟨rfl, hrest⟩)
    exact List.cons_prefix_cons.2 ⟨rfl, brace_of_filled hrest hbrace⟩

/-- A value without a dollar sign hides no escape in what follows. -/
private theorem escapes_value_append (hvalues : ∀ v ∈ values, '$' ∉ v) (hdigits : '$' ∉ digits) :
    escapes (Piece.value values digits ++ t) = escapes t := by
  have hwritten : escapes ((Piece.placeholder digits).written ++ t) = escapes t := by
    have hbehind : '$' ∉ '{' :: (digits ++ ['}']) := by simp [hdigits]
    have hbrace : ¬ ['$', '$', '{'] <+: '$' :: ('{' :: (digits ++ ['}']) ++ t) := by simp
    exact (escapes_cons_of_not hbrace).trans (escapes_append_of_no_dollar hbehind)
  cases hvalue : (Text.Numeral.ofDecimals? digits).bind (values[·]?) with
  | none => rw [Piece.value, hvalue, Option.getD_none, hwritten]
  | some v =>
    obtain ⟨index, -, hindex⟩ := Option.bind_eq_some_iff.1 hvalue
    rw [Piece.value, hvalue, Option.getD_some,
      escapes_append_of_no_dollar (hvalues v (List.mem_of_getElem? hindex))]

/-- Values without a dollar sign bring no escape. -/
theorem escapes_filled_of_no_dollar (hvalues : ∀ v ∈ values, '$' ∉ v) (text : List Char) :
    escapes ((pieces text).flatMap (·.filled values)) = (pieces text).count .escape := by
  induction text using pieces_induction with
  | nil => simp [pieces, escapes]
  | escape rest ih =>
    have hpiece (t : List Char) : escapes ('$' :: '$' :: '{' :: t) = 1 + escapes t := by
      simp [escapes]
    rw [pieces, List.flatMap_cons, List.count_cons_self, ← ih, Nat.add_comm]
    exact hpiece _
  | placeholder digits rest hdollar _ hpieces ih =>
    rw [hpieces, List.flatMap_cons, Piece.filled, escapes_value_append hvalues hdollar, ih]
    simp
  | plain c rest hescape hplain ih =>
    have hseam : ¬ ['$', '$', '{'] <+: c :: (pieces rest).flatMap (·.filled values) := fun h =>
      hescape (List.cons_prefix_cons.2
        ⟨(List.cons_prefix_cons.1 h).1, opening_of_filled (List.cons_prefix_cons.1 h).2⟩)
    rw [pieces_plain hescape hplain, List.flatMap_cons, Piece.filled, List.singleton_append,
      escapes_cons_of_not hseam, ih]
    simp

end Template

/-! ## Calls of a macro -/

namespace MacroTable

open Template

/-- How a call writes the name of a macro: as it is, or behind a question mark. -/
def Calls (written name : String) : Prop :=
  written = "?" ++ name ∨ written = name ∧ name.toList.head? ≠ some '?'

variable {σ : Type} {table : MacroTable} {written name : String} {definition : Macro}

/-- **The call of a macro that there is**, in one piece. -/
theorem resolve_run (hcalls : Calls written name) (hget : table.get? name = some definition)
    (args : List String) (position : Option Position) (s : σ) :
    (table.resolve (written :: args) position).run s =
      match expand definition.value.toList ((name :: args).map String.toList) with
      | some text =>
        ⟨.ok (.expanded definition (String.ofList text)), s,
          [.macroExpanded position name (String.ofList text)]⟩
      | none => ⟨.error .badNumeral, s, []⟩ := by
  have hhead : (Run.orFail (written :: args).head? .outOfRange : Run σ String) = pure written := rfl
  rw [resolve, hhead, pure_bind]
  obtain rfl | ⟨rfl, hplain⟩ := hcalls
  · have hlist : ("?" ++ name).toList = '?' :: name.toList := by simp
    simp only [hlist, String.ofList_toList, hget, List.tail_cons]
    cases expand definition.value.toList ((name :: args).map String.toList) <;> rfl
  · split
    next mayBeMissing name' hname =>
    split at hname
    · next rest hmark => simp [hmark] at hplain
    · obtain ⟨-, rfl⟩ := Prod.mk.inj hname
      simp only [hget, List.tail_cons]
      cases expand definition.value.toList ((written :: args).map String.toList) <;> rfl

/-- **What the call of a macro returns.** The pieces of its text, with the values in the places of
the placeholders, are unescaped as a whole; the call fails if a number is too long to be read. The
result is the template read once, in which the values stand as they are, exactly if the values hold
no escape and form none with their neighbours. -/
theorem resolve_defined (hcalls : Calls written name) (hget : table.get? name = some definition)
    (args : List String) (position : Option Position) (s : σ) :
    let values := (name :: args).map String.toList
    let template := pieces definition.value.toList
    let text := unescape (template.flatMap (·.filled values))
    template.flatMap Piece.written = definition.value.toList ∧
    (table.resolve (written :: args) position).run s =
      (if ∀ p ∈ template, p.Readable then
        ⟨.ok (.expanded definition (String.ofList text)), s,
          [.macroExpanded position name (String.ofList text)]⟩
      else ⟨.error .badNumeral, s, []⟩) ∧
    (text = template.flatMap (·.contribution values) ↔
      escapes (template.flatMap (·.filled values)) = template.count .escape) := by
  refine ⟨flatMap_written_pieces _, ?_, unescape_filled_iff _ _⟩
  rw [resolve_run hcalls hget, expand, fill_eq]
  by_cases hreadable : ∀ p ∈ pieces definition.value.toList, p.Readable
  · rw [if_pos hreadable, if_pos hreadable, Option.map_some]
  · rw [if_neg hreadable, if_neg hreadable, Option.map_none]

/-- A greeting with an escape, two numbers that have a value, and one that has none. -/
private def greeting : Macro := ⟨"greet", "$$\x7bx\x7d $\x7b1\x7d, I am $\x7b0\x7d$\x7b7\x7d", none⟩

/-- What becomes of it. -/
private def greetingText : String := "$\x7bx\x7d you, I am greet$\x7b7\x7d"

/-- The greeting is the template read once, as no argument has a dollar sign. -/
theorem resolve_defined_greeting :
    Calls "?greet" greeting.name ∧ (add {} greeting).get? greeting.name = some greeting ∧
    ((add {} greeting).resolve ["?greet", "you"] none : Run Unit Resolution).run () =
      ⟨.ok (.expanded greeting greetingText), (), [.macroExpanded none "greet" greetingText]⟩ := by
  have hcalls : Calls "?greet" greeting.name := .inl (by decide)
  have hget : (add {} greeting).get? greeting.name = some greeting := by decide
  obtain ⟨-, hrun, -⟩ := resolve_defined hcalls hget ["you"] none ()
  refine ⟨hcalls, hget, hrun.trans ?_⟩
  have htext : String.ofList (unescape ((pieces greeting.value.toList).flatMap
      (·.filled (["greet", "you"].map String.toList)))) = greetingText := by decide +kernel
  rw [if_pos (by decide +kernel), ← htext]
  rfl

/-- Two arguments beside each other. -/
private def pair : Macro := ⟨"m", "$\x7b1\x7d$\x7b2\x7d", none⟩

/-- The escape in an argument is undone: the result is not the template read once. -/
theorem not_read_once_escaped_argument :
    ¬ ∀ (table : MacroTable) (written name : String) (definition : Macro)
    (args : List String), Calls written name → table.get? name = some definition →
    (∀ p ∈ pieces definition.value.toList, p.Readable) →
    ((table.resolve (written :: args) none : Run Unit Resolution).run ()).result =
      .ok (.expanded definition (String.ofList ((pieces definition.value.toList).flatMap
        (·.contribution ((name :: args).map String.toList))))) := by
  intro h
  have hcalls : Calls "m" "m" := .inr (by decide)
  have hget : (add {} pair).get? "m" = some pair := by decide
  have honce := h (add {} pair) "m" "m" pair ["$$\x7b2\x7d", "b"] hcalls hget (by decide +kernel)
  have hexpand : expand pair.value.toList (["m", "$$\x7b2\x7d", "b"].map String.toList) =
      some "$\x7b2\x7db".toList := by decide +kernel
  rw [resolve_run hcalls hget, hexpand] at honce
  exact absurd (Resolution.expanded.inj (Except.ok.inj honce)).2 (by decide +kernel)

/-- Where no argument and not the name holds a dollar sign, the result is the template read once. -/
theorem resolve_of_no_dollar (hcalls : Calls written name)
    (hget : table.get? name = some definition)
    {args : List String} (hdollar : ∀ arg ∈ name :: args, '$' ∉ arg.toList)
    (hreadable : ∀ p ∈ pieces definition.value.toList, p.Readable) (position : Option Position)
    (s : σ) :
    ((table.resolve (written :: args) position).run s).result =
      .ok (.expanded definition (String.ofList ((pieces definition.value.toList).flatMap
        (·.contribution ((name :: args).map String.toList))))) := by
  have hvalues : ∀ v ∈ (name :: args).map String.toList, '$' ∉ v := by
    intro v hv
    obtain ⟨arg, harg, rfl⟩ := List.mem_map.1 hv
    exact hdollar arg harg
  have honce :=
    (unescape_filled_iff _ _).2 (escapes_filled_of_no_dollar hvalues definition.value.toList)
  rw [resolve_run hcalls hget, expand, fill_eq, if_pos hreadable, Option.map_some, honce]

end MacroTable

end GrammarEngine
