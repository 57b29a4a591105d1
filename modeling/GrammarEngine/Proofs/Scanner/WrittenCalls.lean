import GrammarEngine.Proofs.Macro.Written
import GrammarEngine.Proofs.Scanner.Asking

/-!
# Scanning a written call

A call that is written out, with its arguments in quotes, is found by its first two characters, at
the cursor or inside of a token. Then it is read, with as many lines as it takes: the cursor comes
to stand behind its own closing brace, and the table of macros is asked for the name and the
arguments that were written.

There is one exception. If the call is not complete at the end of a line, the scanner takes a
closing brace in what it has of the call for a sign that the call is malformed. It does not ask
whether that brace stands in quotes. So the arguments of a call that goes on in a further line are
read back only if no closing brace stands in them before the last line (`Call.unfinished`).

Main results:

* `scanAtCursor_written` — what a scan does that comes upon a written call.
* `written_call_read` — scanning a written call.
* `brace_refused_split` — a closing brace in quotes, in a line before the last.
-/

namespace GrammarEngine

namespace Scanner

variable {t t' : Scanner} {s s' : Stream} {c : Cursor} {name : String} {args : List String}
  {after : List Char} {place : Nat}

-- ---------------------------------------------------------------------------
-- The lines of a written call
-- ---------------------------------------------------------------------------

/-- The text from a written call on has been read as far as `begun`. Whether there is a closing
brace before the last line of the call is the same as for the text `first`, which had been read at
the beginning. -/
structure Written (written after first begun unread : List Char) : Prop where
  whole : begun ++ unread = written ++ after
  braces : '}' ∈ Call.unfinished written first ↔ '}' ∈ Call.unfinished written begun

section Lines

variable {written first begun unread : List Char} (hw : Written written after first begun unread)

include hw

/-- What has been read of a call that is not complete is a beginning of it. -/
theorem Written.prefix_of_short (hshort : begun.length < written.length) : begun <+: written :=
  List.prefix_of_prefix_length_le ⟨_, hw.whole⟩ ⟨_, rfl⟩ hshort.le

/-- The rest of a call that is not complete has not been read. -/
theorem Written.unread_of_short (hshort : begun.length < written.length) :
    unread = written.drop begun.length ++ after := by
  obtain ⟨tail, rfl⟩ := hw.prefix_of_short hshort
  have hwhole := hw.whole
  rw [List.append_assoc] at hwhole
  rw [List.drop_left]
  exact List.append_cancel_left hwhole

/-- Behind a call that is complete stands the text that follows on it. -/
theorem Written.complete (hle : written.length ≤ begun.length) :
    ∃ behind, begun = written ++ behind ∧ behind ++ unread = after := by
  obtain ⟨behind, hbehind⟩ := List.prefix_of_prefix_length_le ⟨_, rfl⟩ ⟨_, hw.whole⟩ hle
  have hwhole := hw.whole
  rw [← hbehind, List.append_assoc] at hwhole
  exact ⟨behind, hbehind.symm, List.append_cancel_left hwhole⟩

end Lines

/-- A further line is read of a written call. -/
theorem Written.readsLine {first begun unread : List Char}
    (hw : Written (Call.write name args) after first begun unread)
    (hname : Call.isName name.toList = true)
    (hnone : Call.read? begun = none) (hnot : '}' ∉ begun) :
    Written (Call.write name args) after first (begun ++ (readLine unread).1)
      (readLine unread).2 := by
  have hshort : begun.length < (Call.write name args).length := by
    by_contra hle
    obtain ⟨behind, hbehind, -⟩ := hw.complete (not_lt.mp hle)
    rw [hbehind, Call.read?_write hname] at hnone
    cases hnone
  have hlast : (Call.write name args).getLast? ≠ some '\n' := by
    rw [Call.getLast?_write]
    decide
  refine ⟨?_, ?_⟩
  · rw [← hw.whole, List.append_assoc, readLine_append]
  · rw [hw.braces, Call.mem_unfinished_iff hlast hshort after, ← hw.unread_of_short hshort]
    simp [hnot]

-- ---------------------------------------------------------------------------
-- Scanning a written call
-- ---------------------------------------------------------------------------

/-- What a scan leaves that comes upon a written call, at the cursor or inside of a token. -/
theorem scanAtCursor_written (hname : Call.isName name.toList = true) (h : t.current? = some s)
    (hopen : s.isClosed = false) (hc : s.cursor = some c) (hplan : plan t c = .call place)
    (hlength : place ≤ c.line.length)
    (htext : c.line.drop place ++ s.unread = Call.write name args ++ after) :
    scanAtCursor.Leaves t fun r t' =>
      if '}' ∈ Call.unfinished (Call.write name args) (c.line.drop place) then
        ∃ m : Message, m.id = malformedId ∧ r = .error (.parse m)
      else ∃ more s' c', s.Longer s' (c.seek place) more ∧
        c' = (c.append more).seek (place + (Call.write name args).length) ∧
          c'.rest ++ s'.unread = after ∧ let there := t.noting.onto { s' with cursor := some c' }
        let asked := (t.macros.resolve (name :: args) there.position >>=
          putInPlace ⟨name, args, (Call.write name args).length⟩ t.maxDepth >>= fun _ =>
            onStream (Stream.seek c.pos)).run there
        r = asked.result.map (fun _ => none) ∧ t' = asked.state := by
  have hdrop (more : List Char) : (c.line ++ more).drop place = c.line.drop place ++ more :=
    List.drop_append_of_le_length hlength
  have hlast : (Call.write name args).getLast? ≠ some '\n' := by
    rw [Call.getLast?_write]
    decide
  refine (scanAtCursor_call (fun more s' =>
    Written (Call.write name args) after (c.line.drop place) (c.line.drop place ++ more) s'.unread)
      ⟨by rw [List.append_nil]; exact htext, by rw [List.append_nil]⟩ ?_ h hopen hc hplan).mono ?_
  · intro more s' _ hw hnone hnot _
    rw [hdrop] at hnone hnot
    have hline := hw.readsLine hname hnone hnot
    rw [List.append_assoc] at hline
    exact hline
  · rintro r t' ⟨more, s', hreads, hw, hr⟩
    rw [hdrop] at hr
    by_cases hle : (Call.write name args).length ≤ (c.line.drop place ++ more).length
    · -- the call is complete
      have hnot : '}' ∉ Call.unfinished (Call.write name args) (c.line.drop place) := by
        rw [hw.braces, Call.unfinished, if_pos hle]
        exact List.not_mem_nil
      obtain ⟨behind, hbehind, hafter⟩ := hw.complete hle
      rw [hbehind, Call.read?_write hname] at hr
      have hlonger := hreads.longer
      refine (if_neg hnot).mpr ⟨more, s', _,
        ⟨hlonger.unread, hlonger.expansions, hlonger.isClosed, hlonger.cursor⟩, rfl, ?_, hr⟩
      show (c.line ++ more).drop (place + (Call.write name args).length) ++ s'.unread = after
      rw [← List.drop_drop, hdrop, hbehind, List.drop_left, hafter]
    · have hshort := not_le.mp hle
      rw [Call.read?_beginning hname (hw.prefix_of_short hshort) hshort] at hr
      dsimp only at hr
      split at hr
      · next hat =>
        rw [if_pos]
        · exact hr
        · rw [hw.braces, Call.mem_unfinished_iff hlast hshort after]
          exact .inl hat
      · -- there is a line more, as the call is not complete
        obtain ⟨hend, -⟩ := hr
        have hunread := hw.unread_of_short hshort
        rw [hend] at hunread
        obtain ⟨hnil, -⟩ := List.append_eq_nil_iff.mp hunread.symm
        rw [List.drop_eq_nil_iff] at hnil
        exact absurd hnil hle

/-- **Scanning a written call**, which stands behind text that does not end in a dollar sign. It is
found: no token goes past its beginning, and it is replaced first where the cursor stands at it.
Where it is to be replaced, it is read to its own closing brace, on as many lines as it takes, and
the table of macros is asked for its name and its arguments, unless a closing brace stands in what
has been read of the call before its last line. If none of its lines had been read but the first,
that is all that stands before the last line. -/
theorem written_call_read (hname : Call.isName name.toList = true) (h : t.current? = some s)
    (hopen : s.isClosed = false) (hup : s.upcoming? = some s') (hc : s'.cursor = some c)
    (hcalls : t.callsMacros = true) (hpos : c.pos ≤ place) (honline : place + 1 < c.line.length)
    (hbefore : ∀ before, place = before + 1 → c.line[before]? ≠ some '$')
    (htext : c.line.drop place ++ s'.unread = Call.write name args ++ after) :
    (∀ p m, plan t c = .token p m → p.isSkipped = true ∨ m.stop < place) ∧
      (place = c.pos → plan t c = .call place) ∧
      (c.line.drop place = (readLine (Call.write name args ++ after)).1 →
        Call.unfinished (Call.write name args) (c.line.drop place) =
          (Call.write name args).rdropWhile (· != '\n')) ∧
      (plan t c = .call place →
        if '}' ∈ Call.unfinished (Call.write name args) (c.line.drop place) then
          ∃ m : Message, m.id = malformedId ∧ (scanRound.run t).result = .error (.parse m)
        else ∃ more s'' c'', s'.Longer s'' (c.seek place) more ∧
          c'' = (c.append more).seek (place + (Call.write name args).length) ∧
            c''.rest ++ s''.unread = after ∧
          let there := (t.onto s').noting.onto { s'' with cursor := some c'' }
          let asked := (t.macros.resolve (name :: args) there.position >>=
            putInPlace ⟨name, args, (Call.write name args).length⟩ t.maxDepth >>= fun _ =>
              onStream (Stream.seek c.pos)).run there
          (scanRound.run t).result = asked.result.map (fun _ => none) ∧
              (scanRound.run t).state = asked.state) := by
  have hbegins : callBegins ⟨c.line, place⟩ = true := callBegins_of_text honline hbefore htext
  refine ⟨fun p m htoken => reaches_of_plan_token hcalls htoken hpos hbegins, ?_,
    fun hline => ?_, fun hplan => ?_⟩
  · rintro rfl
    exact if_pos (Bool.and_eq_true_iff.mpr ⟨hcalls, hbegins⟩)
  · rw [hline]
    exact Call.unfinished_readLine name args after
  · have hopen' : s'.isClosed = false := (Stream.isClosed_upcoming? hup).trans hopen
    have hscan := scanAtCursor_written hname (current?_onto h s') hopen' hc hplan (by omega) htext
    exact ((scanRound_leaves h hopen).trans (by rw [hup])).mpr hscan

/-- A call over two lines, whose arguments have quotes, a backslash, a dollar sign and a
brace in them. -/
private def twoLines : Scanner :=
  opening "$\x7bm \"a\\\"\\\\b\" \"$\n\x7d\"\x7d c\n" [⟨"m", "$\x7b1\x7d", none⟩]

/-- The call is read with both its lines, and its first argument is put in its place. -/
theorem written_call_read_lines : ∃ (s'' : Stream) (c'' : Cursor),
    c''.rest ++ s''.unread = " c\n".toList ∧
    (let there := (twoLines.onto twoLines.upcoming).noting.onto { s'' with cursor := some c'' }
      let asked := (twoLines.macros.resolve ["m", "a\"\\b", "$\n\x7d"] there.position >>=
        putInPlace ⟨"m", ["a\"\\b", "$\n\x7d"], 19⟩ twoLines.maxDepth >>=
          fun _ => onStream (Stream.seek 0)).run there
      (scanRound.run twoLines).result = asked.result.map (fun _ => none) ∧
        (scanRound.run twoLines).state = asked.state) ∧
    (scanRound.run twoLines).state.current?.map Stream.line = some "a\"\\b c\n".toList := by
  obtain ⟨s, hcurrent, hup⟩ := upcoming?_of_isSome (t := twoLines) (by decide +kernel)
  have hopen : twoLines.upcoming.isClosed = false := by decide +kernel
  have hc : twoLines.upcoming.cursor = some ⟨"$\x7bm \"a\\\"\\\\b\" \"$\n".toList, 0⟩ := by
    decide +kernel
  have htext : "$\x7bm \"a\\\"\\\\b\" \"$\n".toList.drop 0 ++ twoLines.upcoming.unread =
      Call.write "m" ["a\"\\b", "$\n\x7d"] ++ " c\n".toList := by
    decide +kernel
  have hcalls : twoLines.callsMacros = true := by decide +kernel
  obtain ⟨-, hfound, -, hscan⟩ := written_call_read (by decide) hcurrent
    ((Stream.isClosed_upcoming? hup).symm.trans hopen) hup hc hcalls (Nat.le_refl 0) (by decide)
    (by rintro before ⟨⟩) htext
  have hscan := hscan (hfound rfl)
  rw [if_neg (by decide +kernel)] at hscan
  obtain ⟨more, s'', c'', -, -, hbehind, hscan⟩ := hscan
  exact ⟨s'', c'', hbehind, hscan, by decide +kernel⟩

/-- An argument of a call over two lines has a closing brace at the end of the first line. -/
private def braced : Scanner := opening "$\x7bx \"\x7d\n\"\x7d b\n" [⟨"x", "$\x7b1\x7dc", none⟩]

/-- A written call need not be read: where the brace in its argument stands in the first line and
the call ends in the second one, it is malformed for the scanner. -/
theorem brace_refused_split : Call.isName "x".toList = true ∧ (∃ t₀, Reached t₀ braced) ∧
    ∃ s s' c m, braced.current? = some s ∧ s.upcoming? = some s' ∧ s'.cursor = some c ∧ c.pos = 0 ∧
      braced.callsMacros = true ∧ plan braced c = .call 0 ∧
      c.rest ++ s'.unread = Call.write "x" ["\x7d\n"] ++ " b\n".toList ∧
      (scanRound.run braced).result = .error (.parse m) ∧ m.id = malformedId := by
  obtain ⟨s, hcurrent, hup⟩ := upcoming?_of_isSome (t := braced) (by decide +kernel)
  have hc : braced.upcoming.cursor = some ⟨"$\x7bx \"\x7d\n".toList, 0⟩ := by decide +kernel
  have hplan : plan braced ⟨"$\x7bx \"\x7d\n".toList, 0⟩ = .call 0 := if_pos (by decide +kernel)
  have hmalformed : errorId? (scanRound.run braced).result = some malformedId := by decide +kernel
  obtain ⟨m, hid, hm⟩ := of_errorId? hmalformed
  exact ⟨by decide, ⟨_, .opened⟩, s, _, _, m, hcurrent, hup, hc, rfl, by decide +kernel, hplan,
    by decide +kernel, hm, hid⟩

end Scanner

end GrammarEngine
