import Mathlib.Data.Nat.Find
import GrammarEngine.Scanner.Scan

/-!
# Where macro calls stand in a line

A macro call is found by its first two characters and the one in front of them. So where calls begin
in a part of a line does not depend on what stands behind that part; and putting a text in the place
of a call makes no call begin in front of it.

Main results:

* `Call.read?_eq_some_iff` — what a call is read from.
* `Call.length_pos`, `Call.length_le` — a call takes up some of the text that it is read from.
* `Call.read?_split`, `Call.length_lt_of_read?` — a call is read from its own characters,
  and from no fewer.
* `callBegins_iff`, `findStart?_eq_some_iff` — where a call begins, and the first place
  where one does.
* `not_callBegins_of_take_eq` — no call begins in front of a replaced one.
-/

namespace GrammarEngine

namespace Call

theorem length_rest_of_readArguments {place : Place} {args args' : List String}
    {text rest : List Char}
    (h : readArguments place args text = some (args', rest)) : rest.length < text.length := by
  induction text generalizing place args with
  | nil => simp [readArguments_nil] at h
  | cons c text ih =>
    rw [List.length_cons]
    cases place <;> unfold readArguments at h <;> repeat' split at h
    all_goals first
      | exact Nat.lt_succ_of_lt (ih h)
      | cases h
    all_goals exact Nat.lt_succ_self _

theorem length_rest_of_readName {text name rest : List Char}
    (h : readName text = some (name, rest)) : rest.length < text.length := by
  have htail : ∀ {c : Char} {tail : List Char},
      (tail.dropWhile isNamePart).length < (c :: tail).length :=
    fun {_ tail} => Nat.lt_succ_of_le (List.dropWhile_suffix isNamePart (l := tail)).length_le
  unfold readName at h
  split at h
  next mark start heq =>
  split at h
  · split at h
    · simp only [Option.some.injEq, Prod.mk.injEq] at h
      rw [← h.2]
      split at heq
      · cases heq
        exact Nat.lt_trans htail (Nat.lt_succ_self _)
      · cases heq
        exact htail
    · cases h
  · cases h

/-- A call is read as its two characters, a name after any blanks, and the arguments behind the
name. -/
theorem read?_eq_some_iff {text : List Char} {call : Call} : read? text = some call ↔
    ∃ inside name rest args after, text = '$' :: '{' :: inside ∧
      readName (inside.dropWhile Text.isBlank) = some (name, rest) ∧
      readArguments (.gap false) [] rest = some (args, after) ∧
      call = ⟨String.ofList name, args, text.length - after.length⟩ := by
  constructor
  · intro h
    unfold read? at h
    split at h
    · next inside =>
      obtain ⟨⟨name, rest⟩, hname, h⟩ := Option.bind_eq_some_iff.mp h
      obtain ⟨⟨args, after⟩, hargs, h⟩ := Option.bind_eq_some_iff.mp h
      exact ⟨inside, name, rest, args, after, rfl, hname, hargs, (Option.some.inj h).symm⟩
    · cases h
  · rintro ⟨inside, name, rest, args, after, rfl, hname, hargs, rfl⟩
    refine Option.bind_eq_some_iff.mpr ⟨_, hname, ?_⟩
    exact Option.bind_eq_some_iff.mpr ⟨_, hargs, rfl⟩

/-- A call is not empty. -/
theorem length_pos {text : List Char} {call : Call}
    (h : read? text = some call) : 0 < call.length := by
  obtain ⟨inside, name, rest, args, after, rfl, hname, hargs, rfl⟩ := read?_eq_some_iff.mp h
  have hname := length_rest_of_readName hname
  have hargs := length_rest_of_readArguments hargs
  have hblank := (List.dropWhile_suffix Text.isBlank (l := inside)).length_le
  simp only [List.length_cons]
  omega

/-- A call is no longer than the text that it is read from. -/
theorem length_le {text : List Char} {call : Call} (h : read? text = some call) :
    call.length ≤ text.length := by
  obtain ⟨inside, name, rest, args, after, -, -, -, rfl⟩ := read?_eq_some_iff.mp h
  exact Nat.sub_le ..

-- ---------------------------------------------------------------------------
-- The characters of a call
-- ---------------------------------------------------------------------------

/-- Reading arguments does not look behind the closing brace. -/
theorem readArguments_split {place : Place} {args args' : List String} {text rest : List Char}
    (h : readArguments place args text = some (args', rest)) :
    ∃ used, text = used ++ rest ∧
      ∀ rest', readArguments place args (used ++ rest') = some (args', rest') := by
  induction text generalizing place args with
  | nil => simp [readArguments_nil] at h
  | cons c text ih =>
    have hstep : ∀ {place₁ : Place} {args₁ : List String},
        readArguments place₁ args₁ text = some (args', rest) →
        (∀ tail, readArguments place args (c :: tail) = readArguments place₁ args₁ tail) →
        ∃ used, c :: text = used ++ rest ∧
        ∀ rest', readArguments place args (used ++ rest') = some (args', rest') := by
      intro place₁ args₁ h₁ hsame
      obtain ⟨used, rfl, hused⟩ := ih h₁
      exact ⟨c :: used, rfl, fun rest' => (hsame _).trans (hused rest')⟩
    have hstop : ∀ {args₀ : List String}, some (args₀, text) = some (args', rest) →
        (∀ tail, readArguments place args (c :: tail) = some (args₀, tail)) →
        ∃ used, c :: text = used ++ rest ∧
        ∀ rest', readArguments place args (used ++ rest') = some (args', rest') := by
      rintro args₀ ⟨⟩ hsame
      exact ⟨[c], rfl, hsame⟩
    cases place <;> unfold readArguments at h <;> repeat' split at h
    all_goals first
      | exact absurd h (Option.some_ne_none _).symm
      | exact hstep h fun tail => by clear ih hstep hstop h; simp_all [readArguments]
      | exact hstop h fun tail => by clear ih hstep hstop h; simp_all [readArguments]

theorem takeWhile_append_of_dropWhile {p : Char → Bool} {tail rest : List Char} {d : Char}
    (h : tail.dropWhile p = d :: rest) : tail = tail.takeWhile p ++ d :: rest ∧
      ∀ rest', (tail.takeWhile p ++ d :: rest').takeWhile p = tail.takeWhile p ∧
        (tail.takeWhile p ++ d :: rest').dropWhile p = d :: rest' := by
  have hd : p d = false := by
    have hhead := List.head_dropWhile_not p (l := tail) (by rw [h]; exact List.cons_ne_nil _ _)
    simpa only [h, List.head_cons] using hhead
  have hall : ∀ c ∈ tail.takeWhile p, p c = true := List.all_eq_true.mp List.all_takeWhile
  refine ⟨?_, fun rest' => ⟨?_, ?_⟩⟩
  · rw [← h, List.takeWhile_append_dropWhile]
  · rw [List.takeWhile_append_of_pos hall, List.takeWhile_cons_of_neg (by simp [hd]),
      List.append_nil]
  · rw [List.dropWhile_append_of_pos hall, List.dropWhile_cons_of_neg (by simp [hd])]

theorem readName_mark (c : Char) (tail : List Char) : readName ('?' :: c :: tail) =
    if isNameStart c then some ('?' :: c :: tail.takeWhile isNamePart, tail.dropWhile isNamePart)
      else none := rfl

theorem readName_plain {c : Char} (hc : c ≠ '?') (tail : List Char) :
    readName (c :: tail) = if isNameStart c then
      some (c :: tail.takeWhile isNamePart, tail.dropWhile isNamePart) else none := by
  unfold readName
  split
  next mark rest heq =>
  split at heq
  · next h => exact absurd (List.cons.inj h).1 hc
  · obtain ⟨rfl, rfl⟩ := Prod.mk.inj heq
    rfl

/-- Reading a name looks at one character behind it. -/
theorem readName_split {text name rest : List Char} {d : Char}
    (h : readName text = some (name, d :: rest)) :
    ∃ c used, text = c :: used ++ d :: rest ∧
      ∀ rest', readName (c :: used ++ d :: rest') = some (name, d :: rest') := by
  rcases text with _ | ⟨c, tail⟩
  · cases h
  by_cases hc : c = '?'
  · subst hc
    rcases tail with _ | ⟨c, tail⟩
    · cases h
    rw [readName_mark] at h
    split at h
    · next hstart =>
      obtain ⟨rfl, hdrop⟩ := Prod.mk.inj (Option.some.inj h)
      obtain ⟨htail, hother⟩ := takeWhile_append_of_dropWhile hdrop
      refine ⟨'?', c :: tail.takeWhile isNamePart, ?_, fun rest' => ?_⟩
      · rw [List.cons_append, List.cons_append, ← htail]
      · rw [List.cons_append, List.cons_append, readName_mark, if_pos hstart, (hother rest').1,
          (hother rest').2]
    · cases h
  · rw [readName_plain hc] at h
    split at h
    · next hstart =>
      obtain ⟨rfl, hdrop⟩ := Prod.mk.inj (Option.some.inj h)
      obtain ⟨htail, hother⟩ := takeWhile_append_of_dropWhile hdrop
      refine ⟨c, tail.takeWhile isNamePart, ?_, fun rest' => ?_⟩
      · rw [List.cons_append, ← htail]
      · rw [List.cons_append, readName_plain hc, if_pos hstart, (hother rest').1, (hother rest').2]
    · cases h

/-- A call is read from its own characters. -/
theorem read?_split {text : List Char} {call : Call} (h : read? text = some call) :
    ∃ used rest, text = used ++ rest ∧ used.length = call.length ∧
      ∀ rest', read? (used ++ rest') = some call := by
  obtain ⟨inside, name, rest, args, after, rfl, hname, hargs, rfl⟩ := read?_eq_some_iff.mp h
  obtain ⟨used, hused, hreadArgs⟩ := readArguments_split hargs
  rcases used with _ | ⟨d, used⟩
  · rw [hused] at hargs
    exact absurd (length_rest_of_readArguments hargs) (Nat.lt_irrefl _)
  rw [hused] at hname
  obtain ⟨c, inName, hbehind, hreadName⟩ := readName_split hname
  obtain ⟨hinside, hother⟩ := takeWhile_append_of_dropWhile hbehind
  let blanks := inside.takeWhile Text.isBlank
  let characters := '$' :: '{' :: blanks ++ (c :: inName ++ d :: used)
  have hcharacters (rest' : List Char) :
      characters ++ rest' = '$' :: '{' :: (blanks ++ c :: (inName ++ d :: (used ++ rest'))) := by
    simp only [characters, List.cons_append, List.append_assoc]
  have htext : '$' :: '{' :: inside = characters ++ after := by
    rw [hcharacters]
    exact congrArg ('$' :: '{' :: ·) hinside
  have hlength (rest' : List Char) : (characters ++ rest').length - rest'.length =
      characters.length := by
    rw [List.length_append, Nat.add_sub_cancel]
  refine ⟨characters, after, htext, ?_, fun rest' => read?_eq_some_iff.mpr ?_⟩
  · rw [htext, hlength]
  · refine ⟨_, name, d :: (used ++ rest'), args, rest', hcharacters rest', ?_, hreadArgs rest', ?_⟩
    · rw [(hother _).2]
      exact hreadName (used ++ rest')
    · rw [htext, hlength, hlength]

/-- A call that cannot be read from a part of a text goes on behind that part. -/
theorem length_lt_of_read? {text more : List Char} {call : Call} (hnone : read? text = none)
    (h : read? (text ++ more) = some call) : text.length < call.length := by
  obtain ⟨used, rest, heq, hlength, hread⟩ := read?_split h
  by_contra hle
  rw [← hlength, Nat.not_lt] at hle
  obtain ⟨between, hbetween⟩ := List.prefix_of_prefix_length_le ⟨rest, heq.symm⟩ ⟨more, rfl⟩ hle
  rw [← hbetween, hread between] at hnone
  cases hnone

end Call

namespace Scanner

-- ---------------------------------------------------------------------------
-- Where a call begins
-- ---------------------------------------------------------------------------

theorem callBegins_iff {chars : List Char} {start : Nat} : callBegins ⟨chars, start⟩ = true ↔
    chars[start]? = some '$' ∧ chars[start + 1]? = some '{' ∧
      ∀ before, start = before + 1 → chars[before]? ≠ some '$' := by
  have hfirst : chars[start]? = (chars.drop start)[0]? := by simp
  have hsecond : chars[start + 1]? = (chars.drop start)[1]? := by simp
  have hbefore : (Cursor.previous? ⟨chars, start⟩ != some '$') = true ↔
      ∀ before, start = before + 1 → chars[before]? ≠ some '$' := by
    unfold Cursor.previous?
    cases start with
    | zero => simp
    | succ before => simp
  rw [hfirst, hsecond, ← hbefore]
  unfold callBegins Cursor.rest Call.startsWith
  split
  · next rest heq => simp [heq]
  · next hne =>
    refine iff_of_false Bool.false_ne_true ?_
    rintro ⟨hfirst, hsecond, -⟩
    match hdrop : chars.drop start, hfirst, hsecond with
    | c :: d :: rest, hfirst, hsecond =>
      obtain rfl := Option.some.inj hfirst
      obtain rfl := Option.some.inj hsecond
      exact hne rest hdrop

theorem lt_length_of_callBegins {chars : List Char} {start : Nat}
    (h : callBegins ⟨chars, start⟩ = true) :
    start < chars.length := (List.getElem?_eq_some_iff.mp (callBegins_iff.mp h).1).1

/-- What is put in the place of a call makes no call begin in front of it: the character before it
is no dollar sign, or it would not have been a call. -/
theorem not_callBegins_of_take_eq {chars chars' : List Char} {start place : Nat}
    (h : callBegins ⟨chars, start⟩ = true) (htake : chars'.take start = chars.take start)
    (hplace : place < start)
    (hnot : callBegins ⟨chars, place⟩ = false) : callBegins ⟨chars', place⟩ = false := by
  have hsame : ∀ i, i < start → chars'[i]? = chars[i]? := by
    intro i hi
    rw [← List.getElem?_take_of_lt hi, htake, List.getElem?_take_of_lt hi]
  rw [Bool.eq_false_iff] at hnot ⊢
  intro hbegins
  obtain ⟨hfirst, hsecond, hbefore⟩ := callBegins_iff.mp hbegins
  rcases Nat.lt_or_ge (place + 1) start with hlt | hge
  · refine hnot (callBegins_iff.mpr ⟨?_, ?_, fun before hstart => ?_⟩)
    · rw [← hsame place hplace]
      exact hfirst
    · rw [← hsame (place + 1) hlt]
      exact hsecond
    · rw [← hsame before (by omega)]
      exact hbefore before hstart
  · -- the replaced call would have had a dollar sign in front
    obtain rfl : start = place + 1 := by omega
    rw [hsame place hplace] at hfirst
    exact (callBegins_iff.mp h).2.2 place rfl hfirst

-- ---------------------------------------------------------------------------
-- The first call
-- ---------------------------------------------------------------------------

/-- One character further on. -/
theorem cursor_succ {chars rest : List Char} {c : Char} {pos : Nat}
    (h : Cursor.rest ⟨chars, pos⟩ = c :: rest) :
    Cursor.previous? ⟨chars, pos + 1⟩ = some c ∧ Cursor.rest ⟨chars, pos + 1⟩ = rest := by
  unfold Cursor.rest at h ⊢
  unfold Cursor.previous?
  dsimp only at h ⊢
  constructor
  · have hget : chars[pos]? = (chars.drop pos)[0]? := by simp
    rw [if_neg (Nat.succ_ne_zero pos), Nat.add_sub_cancel, hget, h]
    rfl
  · rw [← List.tail_drop, h]
    rfl

theorem findStart?_here {chars : List Char} {pos : Nat}
    (count : Nat) (h : callBegins ⟨chars, pos⟩ = true) :
    Call.findStart? (Cursor.previous? ⟨chars, pos⟩) (Cursor.rest ⟨chars, pos⟩) count = some 0 := by
  unfold Call.findStart?
  exact if_pos h

theorem findStart?_stuck {chars : List Char} {pos count : Nat} (h : callBegins ⟨chars, pos⟩ = false)
    (hstuck : count = 0 ∨ Cursor.rest ⟨chars, pos⟩ = []) :
    Call.findStart? (Cursor.previous? ⟨chars, pos⟩) (Cursor.rest ⟨chars, pos⟩) count = none := by
  unfold Call.findStart?
  refine (if_neg (Bool.eq_false_iff.mp h)).trans ?_
  rcases hstuck with rfl | hrest
  · split
    · next heq => cases heq
    · rfl
  · rw [hrest]

theorem findStart?_further {chars rest : List Char} {c : Char} {pos : Nat} (count : Nat)
    (h : callBegins ⟨chars, pos⟩ = false) (hrest : Cursor.rest ⟨chars, pos⟩ = c :: rest) :
    Call.findStart? (Cursor.previous? ⟨chars, pos⟩) (Cursor.rest ⟨chars, pos⟩) (count + 1) =
      (Call.findStart? (Cursor.previous? ⟨chars, pos + 1⟩) (Cursor.rest ⟨chars, pos + 1⟩) count).map
        (· + 1) := by
  obtain ⟨hprevious, hrest'⟩ := cursor_succ hrest
  have hnot : Call.startsWith (Cursor.previous? ⟨chars, pos⟩) (c :: rest) = false := by
    rw [← hrest]
    exact h
  rw [hprevious, hrest', hrest, Call.findStart?, if_neg (Bool.eq_false_iff.mp hnot)]

/-- The first place where a call begins, among the next ones. -/
theorem findStart?_eq_some_iff {chars : List Char} {pos count offset : Nat} :
    Call.findStart? (Cursor.previous? ⟨chars, pos⟩) (Cursor.rest ⟨chars, pos⟩) count = some offset ↔
      offset ≤ count ∧ callBegins ⟨chars, pos + offset⟩ = true ∧
        ∀ k, k < offset → callBegins ⟨chars, pos + k⟩ = false := by
  induction count generalizing pos offset with
  | zero =>
    cases hbegins : callBegins ⟨chars, pos⟩ with
    | true =>
      rw [findStart?_here 0 hbegins, Option.some.injEq]
      constructor
      · rintro rfl
        exact ⟨Nat.le_refl _, hbegins, fun k hk => absurd hk (Nat.not_lt_zero k)⟩
      · exact fun h => (Nat.le_zero.mp h.1).symm
    | false =>
      rw [findStart?_stuck hbegins (.inl rfl)]
      refine iff_of_false nofun ?_
      rintro ⟨hle, hat, -⟩
      rw [Nat.le_zero.mp hle, Nat.add_zero, hbegins] at hat
      cases hat
  | succ count ih =>
    cases hbegins : callBegins ⟨chars, pos⟩ with
    | true =>
      rw [findStart?_here _ hbegins, Option.some.injEq]
      constructor
      · rintro rfl
        exact ⟨Nat.zero_le _, hbegins, fun k hk => absurd hk (Nat.not_lt_zero k)⟩
      · rintro ⟨-, -, hnone⟩
        by_contra hne
        have hnot := hnone 0 (Nat.pos_of_ne_zero (Ne.symm hne))
        rw [Nat.add_zero, hbegins] at hnot
        cases hnot
    | false =>
      cases hrest : Cursor.rest ⟨chars, pos⟩ with
      | nil =>
        rw [← hrest, findStart?_stuck hbegins (.inr hrest)]
        refine iff_of_false nofun ?_
        rintro ⟨-, hat, -⟩
        have hlength : chars.length ≤ pos := List.drop_eq_nil_iff.mp hrest
        have := lt_length_of_callBegins hat
        omega
      | cons c rest =>
        rw [← hrest, findStart?_further count hbegins hrest, Option.map_eq_some_iff]
        simp only [ih, Nat.add_assoc, Nat.add_comm 1]
        constructor
        · rintro ⟨k, ⟨hle, hat, hnone⟩, rfl⟩
          refine ⟨Nat.succ_le_succ hle, hat, fun j hj => ?_⟩
          rcases j with _ | j
          · exact hbegins
          · exact hnone j (Nat.lt_of_succ_lt_succ hj)
        · rintro ⟨hle, hat, hnone⟩
          rcases offset with _ | offset
          · rw [Nat.add_zero, hbegins] at hat
            cases hat
          · exact ⟨offset, ⟨Nat.le_of_succ_le_succ hle, hat,
              fun j hj => hnone (j + 1) (Nat.succ_lt_succ hj)⟩, rfl⟩

/-- The place where the next call begins; without one, the end of the line. -/
def firstCall (c : Cursor) : Nat :=
  Nat.find (p := fun place =>
    c.pos ≤ place ∧ (callBegins ⟨c.line, place⟩ = true ∨ c.line.length ≤ place))
    ⟨max c.pos c.line.length, Nat.le_max_left .., .inr (Nat.le_max_right ..)⟩

theorem pos_le_firstCall (c : Cursor) : c.pos ≤ firstCall c := (Nat.find_spec (p := fun place =>
  c.pos ≤ place ∧ (callBegins ⟨c.line, place⟩ = true ∨ c.line.length ≤ place)) _).1

theorem firstCall_le {c : Cursor} {place : Nat} (hpos : c.pos ≤ place)
    (h : callBegins ⟨c.line, place⟩ = true ∨ c.line.length ≤ place) : firstCall c ≤ place :=
  Nat.find_min' _ ⟨hpos, h⟩

theorem le_firstCall {c : Cursor} {place : Nat} (hlength : place ≤ c.line.length)
    (h : ∀ k, c.pos ≤ k → k < place → callBegins ⟨c.line, k⟩ = false) : place ≤ firstCall c := by
  rw [firstCall, Nat.le_find_iff]
  rintro k hk ⟨hpos, hbegins | hend⟩
  · exact absurd hbegins (Bool.eq_false_iff.mp (h k hpos hk))
  · omega

/-- The first call is where a call begins and none does before. -/
theorem firstCall_eq {c : Cursor} {start : Nat}
    (hpos : c.pos ≤ start) (hbegins : callBegins ⟨c.line, start⟩ = true)
    (hnone : ∀ k, c.pos ≤ k → k < start → callBegins ⟨c.line, k⟩ = false) : firstCall c = start :=
  Nat.le_antisymm (firstCall_le hpos (.inl hbegins))
    (le_firstCall (Nat.le_of_lt (lt_length_of_callBegins hbegins)) hnone)

/-- Further on in a line the first call is not before. -/
theorem firstCall_mono {chars : List Char} {pos pos' : Nat} (h : pos ≤ pos') :
    firstCall ⟨chars, pos⟩ ≤ firstCall ⟨chars, pos'⟩ := by
  obtain ⟨hle, hat⟩ := Nat.find_spec (p := fun place =>
    pos' ≤ place ∧ (callBegins ⟨chars, place⟩ = true ∨ chars.length ≤ place))
    ⟨max pos' chars.length, Nat.le_max_left .., .inr (Nat.le_max_right ..)⟩
  exact firstCall_le (Nat.le_trans h hle) hat

end Scanner

end GrammarEngine
