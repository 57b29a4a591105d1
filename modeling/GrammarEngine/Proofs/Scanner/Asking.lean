import GrammarEngine.Proofs.Scanner.Plan

/-!
# What a scan asks the table of macros for

When a scan comes upon a call, it reads the call first, with the lines that the call goes on in.
Then the table of macros is asked what becomes of the call, with the name and the arguments as they
were read, and the call is replaced by the text that the table returns (`putInPlace`). At the end
the cursor stands where the scan began, whether the call stood there or further on.

Main results:

* `expandCall_asks` — expanding a call asks for its name and its arguments.
* `scanAtCursor_call` — a scan that comes upon a call, from the reading to the way back.
* `reaches_of_plan_token` — no token goes as far as the beginning of a call.
-/

namespace GrammarEngine

namespace Scanner

variable {t t' : Scanner} {s s' : Stream} {c : Cursor} {place : Nat}

-- ---------------------------------------------------------------------------
-- Asking for a macro
-- ---------------------------------------------------------------------------

/-- What is done with a call, once the table of macros has said what becomes of it. -/
def putInPlace (call : Call) (maxDepth : Nat) : Resolution → Run Scanner Unit
  | .undefined => error "undefined_macro" ("Undefined macro '" ++ call.name ++ "' called")
  | .missing => discard (onStream (Stream.injectText [] call.length))
  | .expanded definition text =>
    if text.isEmpty then discard (onStream (Stream.injectText [] call.length))
    else do
      let done ← onStream
        (Stream.injectMacro definition (call.name :: call.args) text call.length maxDepth)
      if !done then error "macro_stack_overflow" "Too many nested macro calls."

/-- Expanding a call asks the table of macros for its name and its arguments. -/
theorem expandCall_asks (call : Call) (t : Scanner) : (expandCall call).run t =
    (t.macros.resolve (call.name :: call.args) t.position >>=
      putInPlace call t.maxDepth).run t := by
  unfold expandCall
  rw [Run.run_bind, Run.run_get]
  dsimp only
  rw [List.append_nil]
  rfl

theorem seek_pos (hc : s.cursor = some c) : { s with cursor := some (c.seek c.pos) } = s := by
  cases s
  cases hc
  rfl

/-- Going to where the cursor is changes nothing. -/
theorem seek_here (h : t.current? = some s) (hc : s.cursor = some c) :
    (onStream (Stream.seek c.pos)).Leaves t fun r t' => r = .ok () ∧ t' = t := by
  rw [leaves_onStream h, Stream.leaves_seek hc, seek_pos hc]
  exact ⟨rfl, onto_current h⟩

/-- Where a call has been expanded, the cursor is back at its beginning. -/
theorem expandCall_back (h : t.current? = some s) (hc : s.cursor = some c) (call : Call)
    (hstart : c.pos = place + call.length) : (expandCall call).Leaves t fun r t' =>
      let back := (expandCall call >>= fun _ => onStream (Stream.seek place)).run t
      r = back.result ∧ t' = back.state := by
  have hexpands := expandCall_leaves h hc call
  have hsplice (text : List Char) : (c.splice call.length text).pos = place := by
    show c.pos - call.length = place
    rw [hstart, Nat.add_sub_cancel]
  unfold Run.Leaves at hexpands ⊢
  rcases hrun : (expandCall call).run t with ⟨r, t', trace⟩
  rw [hrun] at hexpands
  have hback (s' : Stream) (c' : Cursor) (hmoves : Moves t t' s') (hc' : s'.cursor = some c')
      (hpos : c'.pos = place) (hr : r = .ok ()) :
        r = ((expandCall call >>= fun _ => onStream (Stream.seek place)).run t).result ∧
        t' = ((expandCall call >>= fun _ => onStream (Stream.seek place)).run t).state := by
    have hseek := seek_here (hmoves.current h) hc'
    rw [hpos] at hseek
    rw [Run.run_bind, hrun, hr]
    exact ⟨hseek.1.symm, hseek.2.symm⟩
  cases hexpands with
  | dropped hmoves => exact hback _ _ hmoves rfl (hsplice _) rfl
  | opened _ _ hmoves => exact hback _ _ hmoves rfl (hsplice _) rfl
  | overflow | undefined | numeral =>
    rw [Run.run_bind, hrun]
    exact ⟨rfl, rfl⟩

/-- The work on a call that stands behind its closing brace: the table of macros is asked, the call
is replaced, and the cursor goes back. -/
def replaceRead (call : Call) (back : Nat) (t : Scanner) : Run Scanner Unit :=
  t.macros.resolve (call.name :: call.args) t.position >>= putInPlace call t.maxDepth >>= fun _ =>
    onStream (Stream.seek back)

theorem expandCall_replaces (call : Call) (back : Nat) (t : Scanner) :
    (expandCall call >>= fun _ => onStream (Stream.seek back)).run t =
      (replaceRead call back t).run t := by
  unfold replaceRead
  rw [Run.run_bind, expandCall_asks, ← Run.run_bind]

-- ---------------------------------------------------------------------------
-- Coming upon a call
-- ---------------------------------------------------------------------------

/-- The identifier of the error that a call is malformed. -/
def malformedId : String := "junk_in_macro_call"

/-- A call that cannot be read is refused, whatever is done with what was to become of it. -/
theorem refused_map {α β : Type} {brace ended : Prop} [Decidable brace] {r : Except Fault α}
    (f : α → β)
    (h : if brace then ∃ m : Message, m.id = malformedId ∧ r = .error (.parse m)
      else ended ∧ ∃ m : Message, r = .error (.parse m)) :
    if brace then ∃ m : Message, m.id = malformedId ∧ r.map f = .error (.parse m)
    else ended ∧ ∃ m : Message, r.map f = .error (.parse m) := by
  split at h
  · next hbrace =>
    obtain ⟨m, hid, rfl⟩ := h
    rw [if_pos hbrace]
    exact ⟨m, hid, rfl⟩
  · next hbrace =>
    obtain ⟨hend, m, rfl⟩ := h
    rw [if_neg hbrace]
    exact ⟨hend, m, rfl⟩

section Reading

variable (holds : List Char → Stream → Prop)
  (hfirst : holds [] { s with cursor := some (c.seek place) })
  (hnext : ∀ more s', { s with cursor := some (c.seek place) }.ReadsOn (c.seek place) more s' →
    holds more s' → Call.read? ((c.line ++ more).drop place) = none →
    '}' ∉ (c.line ++ more).drop place → s'.unread ≠ [] →
    holds (more ++ (readLine s'.unread).1) (s'.grown ((c.seek place).append more)))

include hfirst hnext

/-- What is done with a call once it has been read starts behind it. -/
theorem leaves_readCall_bind (h : t.current? = some { s with cursor := some (c.seek place) })
    (hopen : s.isClosed = false) (f : Call → Run Scanner Unit) :
    (readCall >>= f).Leaves t fun r t' =>
      ∃ more s', { s with cursor := some (c.seek place) }.ReadsOn (c.seek place) more s' ∧
          holds more s' ∧ match Call.read? ((c.line ++ more).drop place) with
        | some call =>
          (f call).Leaves (t.onto { s' with cursor := some ⟨c.line ++ more, place + call.length⟩ })
            fun r' t'' => r' = r ∧ t'' = t'
        | none =>
          if '}' ∈ (c.line ++ more).drop place then
            ∃ m : Message, m.id = malformedId ∧ r = .error (.parse m)
          else s'.unread = [] ∧ ∃ m : Message, r = .error (.parse m) := by
  refine Run.leaves_bind.mpr ((readCall_does h hopen rfl holds hfirst hnext).mono
    fun r t₁ hr => ?_)
  obtain ⟨more, s', hreads, hholds, hr⟩ := hr
  have hrest : (Cursor.append more (c.seek place)).rest = (c.line ++ more).drop place := rfl
  rw [hrest] at hr
  cases hread : Call.read? ((c.line ++ more).drop place) with
  | some call =>
    rw [hread] at hr
    obtain ⟨rfl, rfl⟩ := hr
    refine ⟨more, s', hreads, hholds, ?_⟩
    rw [hread]
    exact ⟨rfl, rfl⟩
  | none =>
    rw [hread] at hr
    obtain ⟨-, hr⟩ := hr
    split at hr
    · next hbrace =>
      obtain ⟨m, hid, rfl⟩ := hr
      refine ⟨more, s', hreads, hholds, ?_⟩
      rw [hread, if_pos hbrace]
      exact ⟨m, hid, rfl⟩
    · next hbrace =>
      obtain ⟨hend, m, -, rfl⟩ := hr
      refine ⟨more, s', hreads, hholds, ?_⟩
      rw [hread, if_neg hbrace]
      exact ⟨hend, m, rfl⟩

/-- **A scan that comes upon a call** reads it, with the lines that it goes on in, and then has it
replaced, starting behind its closing brace. -/
theorem scanAtCursor_call (h : t.current? = some s) (hopen : s.isClosed = false)
    (hc : s.cursor = some c) (hplan : plan t c = .call place) : scanAtCursor.Leaves t fun r t' =>
      ∃ more s', { s with cursor := some (c.seek place) }.ReadsOn (c.seek place) more s' ∧
          holds more s' ∧ match Call.read? ((c.line ++ more).drop place) with
        | some call =>
          let there :=
            t.noting.onto { s' with cursor := some ⟨c.line ++ more, place + call.length⟩ }
          let replaced := (replaceRead call c.pos there).run there
          r = replaced.result.map (fun _ => none) ∧ t' = replaced.state
        | none =>
          if '}' ∈ (c.line ++ more).drop place then
            ∃ m : Message, m.id = malformedId ∧ r = .error (.parse m)
          else s'.unread = [] ∧ ∃ m : Message, r = .error (.parse m) := by
  have h₀ : t.noting.current? = some s := (moves_noting h).current h
  let s₀ : Stream := { s with cursor := some (c.seek place) }
  have hplace : (t.noting.onto s₀).current? = some s₀ := current?_onto h₀ _
  refine scanAtCursor_leaves_of h hc (fun hhere => ?_) (fun start stop hinside => ?_)
    (fun p m htoken => by rw [hplan] at htoken; cases htoken) fun hnothing => by
    rw [hplan] at hnothing; cases hnothing
  · obtain rfl : place = c.pos := by
      rw [hplan] at hhere
      cases hhere
      rfl
    have hstays : t.noting.onto s₀ = t.noting := by
      show t.noting.onto { s with cursor := some (c.seek c.pos) } = t.noting
      rw [seek_pos hc]
      exact onto_current h₀
    have hreads := leaves_readCall_bind holds hfirst hnext hplace hopen expandCall
    rw [hstays] at hreads
    refine hreads.mono fun r t' hr => ?_
    obtain ⟨more, s', hreads, hholds, hr⟩ := hr
    refine ⟨more, s', hreads, hholds, ?_⟩
    cases hread : Call.read? ((c.line ++ more).drop c.pos) with
    | some call =>
      rw [hread] at hr
      obtain ⟨rfl, rfl⟩ := hr
      have hthere :=
        current?_onto h₀ { s' with cursor := some ⟨c.line ++ more, c.pos + call.length⟩ }
      have hback := expandCall_back hthere rfl call rfl
      rw [expandCall_replaces] at hback
      exact ⟨congrArg _ hback.1, hback.2⟩
    | none =>
      rw [hread] at hr
      exact refused_map _ hr
  · obtain rfl : place = start := by
      rw [hplan] at hinside
      cases hinside
      rfl
    have hthere := current?_onto h₀ { s with cursor := some (c.seek stop) }
    unfold replaceCallAt replaceCall
    rw [Run.leaves_bind, leaves_onStream hthere, Stream.leaves_seek rfl, Run.continues_ok,
      onto_onto, bind_assoc]
    refine (leaves_readCall_bind holds hfirst hnext hplace hopen _).mono fun r t' hr => ?_
    obtain ⟨more, s', hreads, hholds, hr⟩ := hr
    refine ⟨more, s', hreads, hholds, ?_⟩
    cases hread : Call.read? ((c.line ++ more).drop place) with
    | some call =>
      rw [hread] at hr
      dsimp only at hr ⊢
      rw [onto_onto] at hr
      obtain ⟨rfl, rfl⟩ := hr
      rw [expandCall_replaces]
      exact ⟨rfl, rfl⟩
    | none =>
      rw [hread] at hr
      exact refused_map _ hr

end Reading

-- ---------------------------------------------------------------------------
-- Where calls are found
-- ---------------------------------------------------------------------------

/-- No token goes as far as the beginning of a call, unless it is passed over. -/
theorem reaches_of_plan_token {p : TokenPattern} {m : Match} (hcalls : t.callsMacros = true)
    (h : plan t c = .token p m) (hpos : c.pos ≤ place)
    (hbegins : callBegins ⟨c.line, place⟩ = true) : p.isSkipped = true ∨ m.stop < place := by
  cases hskipped : p.isSkipped with
  | true => exact .inl rfl
  | false =>
    right
    obtain ⟨k, rfl⟩ := Nat.exists_eq_add_of_le hpos
    have hnone : Call.findStart? c.previous? c.rest (m.stop - c.pos) = none := by
      unfold plan at h
      split at h
      · cases h
      · split at h
        · cases h
        · split at h
          · next hpasses =>
            cases h
            rw [hskipped, hcalls] at hpasses
            exact absurd hpasses (by decide)
          · split at h
            · next hfind =>
              cases h
              exact hfind
            · cases h
    by_contra hreaches
    -- the first call that the token reaches would have been found
    have hexists : ∃ k, callBegins ⟨c.line, c.pos + k⟩ = true := ⟨k, hbegins⟩
    have hfirst : Nat.find hexists ≤ k := Nat.find_min' hexists hbegins
    have hfound : Call.findStart? c.previous? c.rest (m.stop - c.pos) =
        some (Nat.find hexists) := by
      refine findStart?_eq_some_iff.mpr ⟨by omega, Nat.find_spec hexists, fun j hj => ?_⟩
      exact Bool.eq_false_iff.mpr (Nat.find_min hexists hj)
    rw [hnone] at hfound
    cases hfound

/-- The text at a place begins with a call, if it is not escaped. -/
theorem callBegins_of_text {chars tail after : List Char} (honline : place + 1 < chars.length)
    (hbefore : ∀ before, place = before + 1 → chars[before]? ≠ some '$')
    (htext : chars.drop place ++ tail = '$' :: '{' :: after) :
    callBegins ⟨chars, place⟩ = true := by
  have hget (i : Nat) (hi : place + i < chars.length) : chars[place + i]? =
      ('$' :: '{' :: after)[i]? := by
    rw [← htext, List.getElem?_append_left (by rw [List.length_drop]; omega), List.getElem?_drop]
  exact callBegins_iff.mpr ⟨hget 0 (by omega), hget 1 honline, hbefore⟩

/-- A pattern for words. -/
def anyWord : TokenPattern :=
  ⟨some "ID", ⟨.repeated 1 none false (.oneOf false [.range 'a' 'z']), 0, {}⟩, none⟩

/-- A scanner that has been opened to read a text with macros. -/
def opening (text : String) (macros : List Macro) : Scanner :=
  let closed : Scanner :=
    { master := text, lexicon := [(none, [anyWord])], defaultMode := none, mode := none,
      macros := ⟨macros⟩ }
  ((Scanner.start true).run closed).state

end Scanner

end GrammarEngine
