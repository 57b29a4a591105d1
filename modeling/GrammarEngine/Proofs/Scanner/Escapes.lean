import GrammarEngine.Proofs.Macro.Substitution
import GrammarEngine.Proofs.Scanner.Asking

/-!
# Escaped calls in the text of a macro

In the text of a macro two dollar signs and a brace stand for a dollar sign and a brace. The
table of macros undoes the escape before the text is put into the line, and the line does not
keep which of its characters were escaped. So the scanner finds a dollar sign and a brace there
like any others. It takes them for the beginning of a call, unless another dollar sign happens to
stand in front of them.

Main results:

* `Template.expand_append_escape` — what an escape becomes in the text that a macro expands to.
* `plan_at_opening` — what a scan makes of a dollar sign and a brace in its line.
* `escaped_call_found` — an escaped call is found once its macro has been expanded.
* `escaped_call_expanded` — an escaped call that is expanded.
-/

namespace GrammarEngine

-- ---------------------------------------------------------------------------
-- Escapes in the text of a macro
-- ---------------------------------------------------------------------------

namespace Template

variable {values : List (List Char)} {c : Char} {u v x : List Char}

theorem placeholder?_of_not_opening {text : List Char} (h : ¬ ['$', '{'] <+: text) :
    placeholder? text = none := by
  unfold placeholder?
  split
  · exact absurd ⟨_, rfl⟩ h
  · rfl

/-- Whether a placeholder begins at a character is not changed by a text behind that begins with
a dollar sign. -/
theorem placeholder?_append_dollar (c : Char) (x v : List Char) :
    placeholder? (c :: (x ++ '$' :: v)) = placeholder? (c :: x) := by
  by_cases hopens : ['$', '{'] <+: c :: x
  · obtain ⟨y, hy⟩ := hopens
    have htake : (y ++ '$' :: v).takeWhile Text.isDecimal = y.takeWhile Text.isDecimal := by
      rw [List.takeWhile_append]
      split
      · next h => rw [List.takeWhile_cons_of_neg (by decide), List.append_nil,
          (List.takeWhile_prefix Text.isDecimal).eq_of_length h]
      · rfl
    rw [← List.cons_append, ← hy]
    simp only [List.cons_append, List.nil_append, placeholder?]
    rw [htake, List.dropWhile_append]
    cases y.dropWhile Text.isDecimal with
    | nil => rfl
    | cons d z => by_cases hd : d = '}' <;> simp [hd]
  · have hnot : ¬ ['$', '{'] <+: c :: (x ++ '$' :: v) := by
      cases x with
      | nil => simp
      | cons d x => simpa using hopens
    rw [placeholder?_of_not_opening hopens, placeholder?_of_not_opening hnot]

/-- Whether an escape begins at a character is not changed by an escape behind. -/
theorem escape_prefix_append (c : Char) (x v : List Char) :
    ['$', '$', '{'] <+: c :: (x ++ '$' :: '$' :: '{' :: v) ↔ ['$', '$', '{'] <+: c :: x := by
  match x with
  | [] => simp
  | [d] => simp
  | d :: e :: x => simp

theorem pieces_append_escape (u v : List Char) :
    pieces (u ++ '$' :: '$' :: '{' :: v) = pieces u ++ .escape :: pieces v := by
  induction u using pieces_induction with
  | nil => simp [pieces]
  | escape rest ih => simp [pieces, ih]
  | placeholder digits rest _ hdigits hpieces ih =>
    have hbehind :=
      placeholder?_append_dollar '$' ('{' :: (digits ++ '}' :: rest)) ('$' :: '{' :: v)
    have hdrop : ('{' :: (digits ++ '}' :: rest) ++ '$' :: '$' :: '{' :: v).drop
        (digits.length + 2) = rest ++ '$' :: '$' :: '{' :: v := by simp
    rw [hdigits] at hbehind
    rw [hpieces, List.cons_append, pieces_placeholder hbehind, hdrop, ih]
    rfl
  | plain c rest hescape hplain ih =>
    have hescape' := (escape_prefix_append c rest v).not.mpr hescape
    have hplain' := (placeholder?_append_dollar c rest ('$' :: '{' :: v)).trans hplain
    rw [List.cons_append, pieces_plain hescape' hplain', pieces_plain hescape hplain, ih]
    rfl

theorem unescape_append_escape (u v : List Char) :
    unescape (u ++ '$' :: '$' :: '{' :: v) = unescape u ++ '$' :: '{' :: unescape v := by
  induction u with
  | nil => simp [unescape]
  | cons c u ih =>
    have hescape := escape_prefix_append c u v
    rw [List.cons_append, unescape_cons, unescape_cons, ih]
    by_cases h : ['$', '$', '{'] <+: c :: u
    · rw [if_pos h, if_pos (hescape.mpr h)]
    · rw [if_neg h, if_neg (hescape.not.mpr h)]
      rfl

/-- **An escape in the text of a macro** stands as a dollar sign and a brace between what the text
before it and the text behind it expand to. -/
theorem expand_append_escape (values : List (List Char)) (u v : List Char) :
    expand (u ++ '$' :: '$' :: '{' :: v) values =
      (expand u values).bind fun a => (expand v values).map fun b => a ++ '$' :: '{' :: b := by
  unfold expand
  rw [fill_eq, fill_eq, fill_eq, pieces_append_escape]
  have hreadable : (∀ p ∈ pieces u ++ .escape :: pieces v, p.Readable) ↔
      (∀ p ∈ pieces u, p.Readable) ∧ ∀ p ∈ pieces v, p.Readable := by
    rw [List.forall_mem_append, List.forall_mem_cons]
    exact and_congr_right fun _ => and_iff_right trivial
  by_cases hu : ∀ p ∈ pieces u, p.Readable
  · by_cases hv : ∀ p ∈ pieces v, p.Readable
    · rw [if_pos hu, if_pos hv, if_pos (hreadable.mpr ⟨hu, hv⟩), List.flatMap_append,
        List.flatMap_cons]
      exact congrArg some (unescape_append_escape _ _)
    · rw [if_pos hu, if_neg hv, if_neg fun h => hv (hreadable.mp h).2]
      rfl
  · rw [if_neg hu, if_neg fun h => hu (hreadable.mp h).1]
    rfl

end Template

namespace Scanner

variable {t t' : Scanner} {s s' : Stream} {c : Cursor} {place : Nat}

-- ---------------------------------------------------------------------------
-- A dollar sign and a brace in the line
-- ---------------------------------------------------------------------------

/-- A dollar sign and a brace begin a call, if there is no dollar sign in front of them. -/
theorem callBegins_append {before behind : List Char} :
    callBegins ⟨before ++ '$' :: '{' :: behind, before.length⟩ = true ↔
      before.getLast? ≠ some '$' := by
  rw [callBegins_iff, List.getElem?_append_right (Nat.le_refl _),
    List.getElem?_append_right (Nat.le_add_right ..), Nat.sub_self, Nat.add_sub_cancel_left]
  simp only [List.getElem?_cons_zero, List.getElem?_cons_succ, true_and]
  constructor
  · intro h hlast
    obtain ⟨front, rfl⟩ := List.getLast?_eq_some_iff.mp hlast
    exact h front.length (by simp) (by simp)
  · intro hlast i hi hdollar
    rw [List.getElem?_append_left (by omega)] at hdollar
    rw [List.getLast?_eq_getElem?, hi, Nat.add_sub_cancel] at hlast
    exact hlast hdollar

/-- What a scan makes of a dollar sign and a brace in its line. Behind a dollar sign they are not
replaced. Otherwise they are found: they are replaced first where the cursor stands at them, and no
token goes as far as them, unless it is passed over. -/
theorem plan_at_opening {before : List Char} {pos : Nat} (hcalls : t.callsMacros = true)
    (hpos : pos ≤ before.length) (behind : List Char) : let here : Cursor :=
  ⟨before ++ '$' :: '{' :: behind, pos⟩
    (before.getLast? = some '$' → plan t here ≠ .call before.length) ∧
      (before.getLast? ≠ some '$' → (pos = before.length → plan t here = .call pos) ∧
        ∀ p m, plan t here = .token p m → p.isSkipped = true ∨ m.stop < before.length) := by
  refine ⟨fun hlast hplan => ?_, fun hlast => ⟨?_, fun p m htoken => ?_⟩⟩
  · obtain ⟨-, hbegins, -⟩ := callBegins_of_plan_call hplan
    exact callBegins_append.mp hbegins hlast
  · rintro rfl
    exact if_pos (Bool.and_eq_true_iff.mpr ⟨hcalls, callBegins_append.mpr hlast⟩)
  · exact reaches_of_plan_token hcalls htoken hpos (callBegins_append.mpr hlast)

-- ---------------------------------------------------------------------------
-- The text in the line
-- ---------------------------------------------------------------------------

/-- A text that is put in the place of a call stands in the line. -/
theorem putInPlace_leaves (h : t.current? = some s) (hc : s.cursor = some c) (call : Call)
    (maxDepth : Nat) (definition : Macro) (text : String) :
    (putInPlace call maxDepth (.expanded definition text)).Leaves t fun r t' =>
      r = .ok () → ∃ s', t'.current? = some s' ∧
          s'.cursor = some (c.splice call.length text.toList) ∧ s'.unread = s.unread := by
  unfold putInPlace
  dsimp only
  split
  · next hempty =>
    have hnil : text.toList = [] := String.toList_eq_nil_iff.mpr (String.isEmpty_iff.mp hempty)
    rw [Run.leaves_discard, leaves_onStream h, Stream.leaves_injectText hc, hnil]
    exact fun _ => ⟨_, current?_onto h _, rfl, rfl⟩
  · rw [Run.leaves_bind, leaves_onStream h, Stream.leaves_injectMacro hc]
    split
    · -- there was no room for a further expansion
      rw [Run.continues_ok, if_pos (by decide : (!false) = true)]
      refine (leaves_error (current?_onto h s)).mono fun r t' hr => ?_
      obtain ⟨⟨m, -, rfl⟩, -⟩ := hr
      intro hdone
      cases hdone
    · exact fun _ => ⟨_, current?_onto h _, rfl, rfl⟩

/-- Where a call has been replaced that was read, the text that its macro expands to
stands in the line. -/
theorem replaceRead_leaves (h : t.current? = some s) (hc : s.cursor = some c) (call : Call)
    (back : Nat) {name : String} {definition : Macro}
    (hcalls : MacroTable.Calls call.name name) (hget : t.macros.get? name = some definition) :
    (replaceRead call back t).Leaves t fun r t' => r = .ok () → ∃ text s',
      Template.expand definition.value.toList ((name :: call.args).map String.toList) = some text ∧
        t'.current? = some s' ∧ s'.cursor = some ((c.splice call.length text).seek back) ∧
        s'.unread = s.unread := by
  have hresolve : (t.macros.resolve (call.name :: call.args) t.position).Leaves t fun r t' =>
      t' = t ∧ (r = .error .badNumeral ∨ ∃ text,
        Template.expand definition.value.toList ((name :: call.args).map String.toList) =
          some text ∧ r = .ok (.expanded definition (String.ofList text))) := by
    unfold Run.Leaves
    rw [MacroTable.resolve_run hcalls hget]
    cases Template.expand definition.value.toList ((name :: call.args).map String.toList) with
    | none => exact ⟨rfl, .inl rfl⟩
    | some text => exact ⟨rfl, .inr ⟨text, rfl, rfl⟩⟩
  unfold replaceRead
  rw [bind_assoc]
  refine hresolve.bind (fun resolution t₁ hr => ?_) fun fault t₁ _ hdone => by cases hdone
  obtain ⟨rfl, hr | ⟨text, htext, hr⟩⟩ := hr
  · cases hr
  · obtain rfl := Except.ok.inj hr
    refine (putInPlace_leaves h hc call _ definition (String.ofList text)).bind
      (fun _ t₂ hput => ?_) fun fault t₂ _ hdone => by cases hdone
    obtain ⟨s₁, hcurrent, hcursor, hunread⟩ := hput rfl
    rw [leaves_onStream hcurrent, Stream.leaves_seek hcursor, String.toList_ofList]
    exact fun _ => ⟨text, _, htext, current?_onto hcurrent _, rfl, hunread⟩

private theorem ok_of_map {r : Except Fault Unit}
    (h : r.map (fun _ => (none : Option Token)) = .ok none) : r = .ok () := by
  cases r with
  | ok _ => rfl
  | error fault => cases h

/-- **A round that has replaced a call** leaves the text that its macro expands to in the line, and
the cursor where it stood. -/
theorem scanRound_replaced (h : t.current? = some s) (hopen : s.isClosed = false)
    (hup : s.upcoming? = some s') (hc : s'.cursor = some c) (hplan : plan t c = .call place)
    (hdone : (scanRound.run t).result = .ok none) :
    ∃ call more unread, Call.read? ((c.line ++ more).drop place) = some call ∧
      s'.unread = more ++ unread ∧ ∀ name definition, MacroTable.Calls call.name name →
        t.macros.get? name = some definition → ∃ text s'',
        Template.expand definition.value.toList ((name :: call.args).map String.toList) =
          some text ∧ (scanRound.run t).state.current? = some s'' ∧ s''.unread = unread ∧
          s''.cursor =
            some ⟨(c.line ++ more).take place ++ text ++
              (c.line ++ more).drop (place + call.length), c.pos⟩ := by
  have h' : (t.onto s').current? = some s' := current?_onto h s'
  have hscan := ((scanRound_leaves h hopen).trans (by rw [hup])).mpr
    (scanAtCursor_call (fun _ _ => True) trivial (fun _ _ _ _ _ _ _ => trivial) h'
      ((Stream.isClosed_upcoming? hup).trans hopen) hc hplan)
  obtain ⟨more, s₁, hreads, -, hr⟩ := hscan
  rw [hdone] at hr
  cases hread : Call.read? ((c.line ++ more).drop place) with
  | none =>
    rw [hread] at hr
    dsimp only at hr
    split at hr
    · obtain ⟨m, -, hm⟩ := hr
      cases hm
    · obtain ⟨-, m, hm⟩ := hr
      cases hm
  | some call =>
    refine ⟨call, more, s₁.unread, hread, hreads.longer.unread,
      fun name definition hcalls hget => ?_⟩
    rw [hread] at hr
    obtain ⟨hresult, hstate⟩ := hr
    have hthere := current?_onto ((moves_noting h').current h')
      { s₁ with cursor := some ⟨c.line ++ more, place + call.length⟩ }
    have hreplaced := replaceRead_leaves hthere rfl call c.pos hcalls hget
    unfold Run.Leaves at hreplaced
    rw [← hstate] at hreplaced
    obtain ⟨text, s'', htext, hcurrent, hcursor, hunread⟩ := hreplaced (ok_of_map hresult.symm)
    refine ⟨text, s'', htext, hcurrent, hunread, ?_⟩
    rw [hcursor]
    unfold Cursor.splice Cursor.seek
    rw [Nat.add_sub_cancel]

/-- Where a text stands in the place of a call, a dollar sign and a brace in it begin a call, unless
the text before them ends in a dollar sign. -/
theorem callBegins_replaced {chars more a b behind : List Char}
    (hbegins : callBegins ⟨chars, place⟩ = true) :
    callBegins ⟨(chars ++ more).take place ++ (a ++ '$' :: '{' :: b) ++ behind,
      place + a.length⟩ = true ↔ a.getLast? ≠ some '$' := by
  obtain ⟨hfirst, -, hbefore⟩ := callBegins_iff.mp hbegins
  have hplace : place < chars.length := (List.getElem?_eq_some_iff.mp hfirst).1
  have hlength : ((chars ++ more).take place ++ a).length = place + a.length := by simp; omega
  have hline : (chars ++ more).take place ++ (a ++ '$' :: '{' :: b) ++ behind =
      ((chars ++ more).take place ++ a) ++ '$' :: '{' :: (b ++ behind) := by simp
  have hfront : (chars.take place).getLast? ≠ some '$' := by
    intro hlast
    obtain ⟨front, hfront⟩ := List.getLast?_eq_some_iff.mp hlast
    have hplace' : place = front.length + 1 := by
      have hlength := congrArg List.length hfront
      simp at hlength
      omega
    refine hbefore front.length hplace' ?_
    rw [← List.take_append_drop place chars, hfront]
    simp
  rw [hline, ← hlength, callBegins_append, List.take_append_of_le_length (Nat.le_of_lt hplace),
    List.getLast?_append]
  cases hlast : a.getLast? with
  | none => exact iff_of_true hfront (by simp)
  | some d => simp

/-- **An escaped call in the text of a macro is found.** Where a round has replaced a call, every
escape in the value of its macro stands in the line as a dollar sign and a brace, between what
the value expands to before it and behind it. They begin a call, unless the text before them ends
in a dollar sign. So it stays when the scanner goes on, in whatever mode and with whatever
macros: as long as they stand behind another dollar sign they are not replaced, and otherwise
they are replaced first where the cursor stands at them, and no token goes as far as them, unless
it is passed over. -/
theorem escaped_call_found (h : t.current? = some s) (hopen : s.isClosed = false)
    (hup : s.upcoming? = some s') (hc : s'.cursor = some c) (hplan : plan t c = .call place)
    (hdone : (scanRound.run t).result = .ok none) :
    ∃ call more unread, Call.read? ((c.line ++ more).drop place) = some call ∧
      s'.unread = more ++ unread ∧ ∀ name definition u v, MacroTable.Calls call.name name →
        t.macros.get? name = some definition →
        definition.value.toList = u ++ '$' :: '$' :: '{' :: v →
        ∃ a b s'' c'', Template.expand u ((name :: call.args).map String.toList) = some a ∧
          Template.expand v ((name :: call.args).map String.toList) = some b ∧
          (scanRound.run t).state.current? = some s'' ∧ s''.unread = unread ∧
          s''.cursor = some c'' ∧ c'' = ⟨(c.line ++ more).take place ++ (a ++ '$' :: '{' :: b) ++
            (c.line ++ more).drop (place + call.length), c.pos⟩ ∧
          (callBegins (c''.seek (place + a.length)) = true ↔ a.getLast? ≠ some '$') ∧
          ∀ (t₂ : Scanner) (before behind : List Char) (pos : Nat), t₂.callsMacros = true →
            pos ≤ before.length → let here : Cursor := ⟨before ++ '$' :: '{' :: (b ++ behind), pos⟩
            (before.getLast? = some '$' → plan t₂ here ≠ .call before.length) ∧
              (before.getLast? ≠ some '$' → (pos = before.length → plan t₂ here = .call pos) ∧
                ∀ p m, plan t₂ here = .token p m →
                p.isSkipped = true ∨ m.stop < before.length) := by
  obtain ⟨-, hbegins, -⟩ := callBegins_of_plan_call hplan
  obtain ⟨call, more, unread, hread, hmore, hreplaced⟩ :=
    scanRound_replaced h hopen hup hc hplan hdone
  refine ⟨call, more, unread, hread, hmore, fun name definition u v hcalls hget hvalue => ?_⟩
  obtain ⟨text, s'', htext, hcurrent, hunread, hcursor⟩ := hreplaced name definition hcalls hget
  rw [hvalue, Template.expand_append_escape] at htext
  obtain ⟨a, ha, htext⟩ := Option.bind_eq_some_iff.mp htext
  obtain ⟨b, hb, rfl⟩ := Option.map_eq_some_iff.mp htext
  exact ⟨a, b, s'', _, ha, hb, hcurrent, hunread, hcursor, rfl, callBegins_replaced hbegins,
    fun t₂ before behind pos hcalls₂ hpos => plan_at_opening hcalls₂ hpos _⟩

/-- A call whose macro has an escaped call for its text. There is a macro of that name, too. -/
private def escaped : Scanner :=
  opening "$\x7bm\x7d b\n" [⟨"m", "$$\x7bx\x7d", none⟩, ⟨"x", "0", none⟩]

/-- The escaped call stands at the cursor once the macro has been expanded, and is found there. -/
theorem escaped_call_found_at_cursor :
    ∃ s'' c'', (scanRound.run escaped).state.current? = some s'' ∧ s''.cursor = some c'' ∧
      c''.line = "$\x7bx\x7d b\n".toList ∧ callBegins (c''.seek 0) = true := by
  obtain ⟨s, hcurrent, hup⟩ := upcoming?_of_isSome (t := escaped) (by decide +kernel)
  have hc : escaped.upcoming.cursor = some ⟨"$\x7bm\x7d b\n".toList, 0⟩ := by decide +kernel
  have hopen : escaped.upcoming.isClosed = false := by decide +kernel
  have hread : escaped.upcoming.unread = [] := by decide +kernel
  have hplan : plan escaped ⟨"$\x7bm\x7d b\n".toList, 0⟩ = .call 0 := if_pos (by decide +kernel)
  have hround : (scanRound.run escaped).result.toOption = some none := by decide +kernel
  obtain ⟨trace, hrun⟩ := Run.returns_of_result hround
  obtain ⟨call, more, unread, hcall, hmore, hfound⟩ := escaped_call_found hcurrent
    ((Stream.isClosed_upcoming? hup).symm.trans hopen) hup hc hplan (congrArg Outcome.result hrun)
  obtain ⟨rfl, rfl⟩ := List.append_eq_nil_iff.mp (hmore.symm.trans hread)
  obtain rfl : ⟨"m", [], 4⟩ = call := Option.some.inj ((by decide +kernel : _ = _).symm.trans hcall)
  obtain ⟨a, b, s'', c'', ha, hb, hcurrent'', -, hcursor, rfl, hbegins, -⟩ :=
    hfound "m" ⟨"m", "$$\x7bx\x7d", none⟩ [] "x\x7d".toList (.inr (by decide)) (by decide +kernel)
      (by decide +kernel)
  obtain rfl : [] = a := Option.some.inj ((by decide +kernel : _ = _).symm.trans ha)
  obtain rfl : "x\x7d".toList = b := Option.some.inj ((by decide +kernel : _ = _).symm.trans hb)
  exact ⟨s'', _, hcurrent'', hcursor, by decide +kernel, hbegins.mpr (by decide)⟩

/-- **An escaped call that is expanded.** The text of a macro is an escaped call, and there is a
macro of that name. The first round puts the call into the line without its escape, the second one
finds it there and replaces it. -/
theorem escaped_call_expanded :
    (∃ t₀, Reached t₀ escaped) ∧
    (∃ definition,
      escaped.macros.get? "m" = some definition ∧ definition.value.toList = "$$\x7bx\x7d".toList) ∧
    (scanRound.run escaped).state.current?.bind Stream.cursor = some ⟨"$\x7bx\x7d b\n".toList, 0⟩ ∧
    plan (scanRound.run escaped).state ⟨"$\x7bx\x7d b\n".toList, 0⟩ = .call 0 ∧
    (scanRound.run (scanRound.run escaped).state).state.current?.bind Stream.cursor =
      some ⟨"0 b\n".toList, 0⟩ :=
  ⟨⟨_, .opened⟩, ⟨⟨"m", "$$\x7bx\x7d", none⟩, by decide +kernel, rfl⟩,
    by decide +kernel, if_pos (by decide +kernel), by decide +kernel⟩

end Scanner

end GrammarEngine
