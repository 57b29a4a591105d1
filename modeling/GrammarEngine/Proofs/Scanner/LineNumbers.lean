import GrammarEngine.Proofs.Scanner.Nesting
import GrammarEngine.Proofs.Scanner.Weaving

/-!
# The line numbers of tokens

A token has the number that its stream has when it is scanned. That is the number of the line in
which the first character of the token stands in the text, unless a call behind that character has
made the stream read on: the token is scanned again once the call has been replaced, and the lines
of the call have been counted by then. So a token that a call stands in, or follows, that goes on in
other lines has the number of the last of these. Calls in front of a token may go on in as many
lines as they like, and their macros may have line feeds in them.

Main results:

* `replaceCall_legible`, `scanAtCursor_legible` — replacing calls keeps what is known of a stream,
  and so does a scan.
* `scanRound_within`, `Reached.within` — so it is known in every state of a scanner.
* `line_of_token` — the number of a token.
* `line_differs_split` — it need not be that of the first character.
-/

namespace GrammarEngine

namespace Stream

variable {text : List Char} {s s₁ s' : Stream} {c : Cursor} {more inserted : List Char}
  {call : Call}

/-- A stream that reads a text, and whose line has come about in some way. -/
structure Legible (text : List Char) (s : Stream) : Prop where
  isOpen : s.isClosed = false
  numbered : s.Numbered text
  woven : ∃ threads, s.Woven text threads

/-- A stream that was just opened is legible. -/
theorem legible_unread (hopen : s.isClosed = false) (hcursor : s.cursor = none)
    (hunread : s.unread = text) (hlineNo : s.lineNo = 0) : s.Legible text := by
  have htaken : s.taken text = 0 := by rw [taken, hunread, Nat.sub_self]
  refine ⟨hopen, ⟨hunread ▸ List.suffix_refl _, fun _ => ?_, fun hpos => ?_⟩, [],
    .unread hcursor hunread⟩
  · rw [htaken]
    exact hlineNo
  · rw [htaken] at hpos
    exact absurd hpos (Nat.lt_irrefl 0)

/-- A stream that has read as much as another, and as many lines. -/
structure SameReading (s s' : Stream) : Prop where
  isClosed : s'.isClosed = s.isClosed
  unread : s'.unread = s.unread
  lineNo : s'.lineNo = s.lineNo

/-- Lines are numbered alike for streams that have read as much. -/
theorem Numbered.of_same (h : s.Numbered text) (hsame : s.SameReading s') : s'.Numbered text := by
  have htaken : s'.taken text = s.taken text := by rw [taken, taken, hsame.unread]
  refine ⟨hsame.unread ▸ h.suffix, fun hmore => ?_, fun hpos => ?_⟩
  · rw [hsame.lineNo, htaken]
    exact h.next (hsame.unread ▸ hmore)
  · rw [hsame.lineNo, htaken]
    exact h.latest (htaken ▸ hpos)

/-- A stream with the same line that has read as much is legible, too. -/
theorem Legible.same (h : s.Legible text) (hsame : s.SameReading s')
    (hline : s'.line = s.line) : s'.Legible text := by
  obtain ⟨threads, hwoven⟩ := h.woven
  exact ⟨hsame.isClosed.trans h.isOpen, h.numbered.of_same hsame, threads,
    .same hwoven hline hsame.unread⟩

/-- Moving the cursor keeps a stream legible. -/
theorem Legible.seek (h : s.Legible text) (hc : s.cursor = some c) (pos : Nat) :
    ({ s with cursor := some (c.seek pos) } : Stream).Legible text :=
  h.same ⟨rfl, rfl, rfl⟩ (line_of_cursor hc).symm

/-- So does going on to the next line. -/
theorem Legible.atNextLine (h : s.Legible text) (hmore : s.unread ≠ []) :
    s.atNextLine.Legible text := by
  obtain ⟨threads, hwoven⟩ := h.woven
  exact ⟨h.isOpen, h.numbered.further hmore rfl rfl, _, .line hwoven⟩

/-- And reading on for a call. -/
theorem Legible.readsOn (h : s.Legible text) (hreads : s.ReadsOn c more s') : s'.Legible text := by
  obtain ⟨threads, hwoven⟩ := h.woven
  exact ⟨hreads.longer.isClosed.trans h.isOpen, hreads.numbered h.numbered, _,
    .refused hwoven hreads⟩

/-- **Replacing a call** keeps a stream legible: its text is woven in. -/
theorem Legible.replaced (h : s.Legible text) (hreads : s.ReadsOn c more s₁)
    (hcall : Call.read? (c.append more).rest = some call) (hsame : s₁.SameReading s')
    (hcursor : s'.cursor =
      some (((c.append more).seek (c.pos + call.length)).splice call.length inserted)) :
    s'.Legible text := by
  obtain ⟨threads, hwoven⟩ := h.woven
  have hline : s'.line =
      (c.line ++ more).take c.pos ++ inserted ++ (c.line ++ more).drop (c.pos + call.length) := by
    rw [line_of_cursor hcursor, Cursor.splice_line]
    unfold Cursor.seek Cursor.append Cursor.rest
    dsimp only
    rw [Nat.add_sub_cancel]
  exact ⟨hsame.isClosed.trans (hreads.longer.isClosed.trans h.isOpen),
    (hreads.numbered h.numbered).of_same hsame, _, .replaced hwoven hreads hcall hsame.unread hline⟩

/-- The stream that the next token is scanned in has text at its cursor. -/
theorem Legible.upcoming (h : s.Legible text) (hup : s.upcoming? = some s') :
    s'.Legible text ∧ ∃ c, s'.cursor = some c ∧ c.pos < c.line.length := by
  have hclean : ∀ {s : Stream}, s.Legible text → s.cleanup.Legible text := fun h =>
    h.same ⟨rfl, rfl, rfl⟩ rfl
  unfold upcoming? at hup
  split at hup
  · next hready =>
    obtain rfl := Option.some.inj hup
    cases hc : s.cursor with
    | none =>
      rw [hc] at hready
      cases hready
    | some c =>
      rw [hc] at hready
      exact ⟨hclean h, c, hc, by simpa [Cursor.atEnd] using hready⟩
  · split at hup
    · cases hup
    · next hmore =>
      obtain rfl := Option.some.inj hup
      refine ⟨hclean (h.atNextLine hmore), _, rfl, ?_⟩
      exact List.length_pos_iff.mpr fun hline =>
        hmore (readLine_isEmpty.mp (List.isEmpty_iff.mpr hline))

end Stream

namespace Scanner

variable {text : List Char} {t t' t'' t₀ : Scanner} {s s' : Stream} {c : Cursor}

-- ---------------------------------------------------------------------------
-- Scanning keeps what is known of a stream
-- ---------------------------------------------------------------------------

/-- The current input still reads the text, and stands somewhere in its line. -/
def StaysLegible (text : List Char) (t t' : Scanner) : Prop :=
  ∃ s c, Moves t t' s ∧ s.Legible text ∧ s.cursor = some c

/-- A move beforehand makes no difference. -/
theorem StaysLegible.of_moves (hthere : Moves t t' s) (h : StaysLegible text t' t'') :
    StaysLegible text t t'' := by
  obtain ⟨s', c, hmoves, hs', hc⟩ := h
  exact ⟨s', c, hthere.trans hmoves, hs', hc⟩

/-- A call at the cursor is replaced in a legible stream. -/
theorem replaceCall_legible (h : t.current? = some s) (hs : s.Legible text)
    (hc : s.cursor = some c) : replaceCall.Leaves t fun _ t' => StaysLegible text t t' := by
  unfold replaceCall
  refine (readCall_reads h hs.isOpen hc).bind (fun call t₁ hr => ?_) fun fault t₁ hr => ?_
  · obtain ⟨more, s₁, hreads, hcall, hmoves⟩ := hr
    have hbehind := (hs.readsOn hreads).seek hreads.longer.cursor (c.pos + call.length)
    refine (expandCall_leaves (hmoves.current h) rfl call).mono fun r t₂ hr => .of_moves hmoves ?_
    cases hr with
    | dropped hmoves' => exact ⟨_, _, hmoves', hs.replaced hreads hcall ⟨rfl, rfl, rfl⟩ rfl, rfl⟩
    | opened htext hdepth hmoves' =>
      exact ⟨_, _, hmoves', hs.replaced hreads hcall ⟨rfl, rfl, rfl⟩ rfl, rfl⟩
    | overflow hdepth hmoves' => exact ⟨_, _, hmoves', hbehind, rfl⟩
    | undefined hid hmoves' => exact ⟨_, _, hmoves', hbehind, rfl⟩
    | numeral hmoves' => exact ⟨_, _, hmoves', hbehind, rfl⟩
  · obtain ⟨more, s₁, hreads, -, hmoves⟩ := hr
    exact ⟨_, _, hmoves, hs.readsOn hreads, hreads.longer.cursor⟩

/-- So is a call inside a match. -/
theorem replaceCallAt_legible (h : t.current? = some s) (hs : s.Legible text)
    (hc : s.cursor = some c) (start back : Nat) :
    (replaceCallAt start back).Leaves t fun _ t' => StaysLegible text t t' := by
  unfold replaceCallAt
  rw [Run.leaves_bind, leaves_onStream h, Stream.leaves_seek hc, Run.continues_ok]
  have hthere := moves_onto t { s with cursor := some (c.seek start) }
  have hcurrent := hthere.current h
  refine (replaceCall_legible hcurrent (hs.seek hc start) rfl).bind (fun _ t₁ hr => ?_)
    fun fault t₁ hr => ?_
  · obtain ⟨s', c', hmoves, hs', hc'⟩ := hr
    rw [leaves_onStream (hmoves.current hcurrent), Stream.leaves_seek hc']
    exact .of_moves (hthere.trans hmoves) ⟨_, _, moves_onto .., hs'.seek hc' back, rfl⟩
  · exact .of_moves hthere hr

/-- The token that is made of a match at a cursor. -/
inductive MadeOf (t : Scanner) (c : Cursor) : Token → Prop
  | plain {p : TokenPattern} {m : Match} {kind : String}
      (hmatch : p.regex.matchAt c.line c.pos = some m) :
      MadeOf t c ⟨kind, .text m.text, some t.position⟩

/-- Patterns without routines. -/
def NoRoutines (patterns : List TokenPattern) : Prop := ∀ p ∈ patterns, p.routine = none

/-- A scan keeps what is known of the stream, and makes its token of a match at the cursor. -/
theorem scanAtCursor_legible (hplain : NoRoutines ((t.lexicon.patterns? t.mode).getD []))
    (h : t.current? = some s)
    (hs : s.Legible text) (hc : s.cursor = some c) : scanAtCursor.Leaves t fun r t' =>
      StaysLegible text t t' ∧ ∀ token, r = .ok (some token) → MadeOf t c token := by
  have hstart : Moves t t.noting s := moves_noting h
  have h₀ := hstart.current h
  -- where a call is replaced no token is made
  have hnone : ∀ {r : Except Fault Unit} {token : Token},
      (r.map fun _ => none) ≠ .ok (some token) := by
    intro r token
    cases r <;> nofun
  refine scanAtCursor_leaves_of h hc (fun hplan => ?_) (fun start stop hplan => ?_)
    (fun p m hplan => ?_) fun hplan => ?_
  · exact (replaceCall_legible h₀ hs hc).mono fun r t' hr =>
      ⟨hr.of_moves hstart, fun _ hr => absurd hr hnone⟩
  · have hthere := hstart.trans (moves_onto t.noting { s with cursor := some (c.seek stop) })
    exact (replaceCallAt_legible (hthere.current h) (hs.seek hc stop) rfl start c.pos).mono
        fun r t' hr =>
      ⟨hr.of_moves hthere, fun _ hr => absurd hr hnone⟩
  · obtain ⟨hmem, hmatch⟩ := mem_of_plan_token hplan
    unfold produce
    rw [hplain p hmem]
    refine ⟨⟨_, _, hstart.trans (moves_onto ..), hs.seek hc m.stop, rfl⟩, fun token hr => ?_⟩
    obtain ⟨kind, -, rfl⟩ := Option.map_eq_some_iff.mp (Except.ok.inj hr)
    exact .plain hmatch
  · refine (leaves_reportUnmatched h₀ hs.isOpen hc).mono fun r t' hr => ?_
    obtain ⟨m, -, rfl, hmoves⟩ := hr
    exact ⟨⟨s, c, hstart.trans hmoves, hs, hc⟩, fun _ hr => absurd hr hnone⟩

-- ---------------------------------------------------------------------------
-- Rounds
-- ---------------------------------------------------------------------------

/-- A scanner that reads its text, and has not come to the end of it. -/
structure Within (t₀ t : Scanner) : Prop where
  setting : SameSetting ((start true).run t₀).state t
  pending : t.pending = none
  ended : t.ended = none
  inputs : ∃ input, t.inputs = [input] ∧ input.stream.Legible t₀.master.toList

/-- A scanner that has come to the end of its text. -/
structure Beyond (t : Scanner) : Prop where
  pending : t.pending = none
  ended : t.ended ≠ none

/-- A round of a scanner makes a token at a cursor of the stream that it scans. -/
structure Makes (t : Scanner) (s : Stream) (c : Cursor) (token : Token) : Prop where
  returns : ∃ t', scanRound.Returns t (some token) t'
  upcoming : t.current?.bind Stream.upcoming? = some s
  cursor : s.cursor = some c

/-- The stream of a scanner that has not come to the end is legible. -/
theorem Within.current (h : Within t₀ t) :
    ∃ s, t.current? = some s ∧ s.Legible t₀.master.toList := by
  obtain ⟨input, hinputs, hlegible⟩ := h.inputs
  exact ⟨input.stream, current?_of_inputs hinputs, hlegible⟩

/-- A move to a legible stream stays within the text. -/
theorem Within.moves (h : Within t₀ t) (hmoves : Moves t t' s)
    (hs : s.Legible t₀.master.toList) : Within t₀ t' := by
  obtain ⟨input, hinputs, -⟩ := h.inputs
  exact ⟨h.setting.trans hmoves.setting, hmoves.pending.trans h.pending, hmoves.ended.trans h.ended,
    { input with stream := s }, hmoves.inputs.trans (onto_inputs hinputs s), hs⟩

/-- A scanner within its text has an input. -/
theorem Within.inputs_ne_nil (h : Within t₀ t) : t.inputs ≠ [] := by
  obtain ⟨input, hinputs, -⟩ := h.inputs
  rw [hinputs]
  exact List.cons_ne_nil _ _

/-- Behind the end of the text there are no tokens but the last one. -/
theorem Beyond.ended_ne {rounds : Nat} {token : Token}
    (h : Beyond t) (hnext : (next rounds).Returns t token t') : t'.ended ≠ none := by
  obtain ⟨last, hended⟩ := Option.ne_none_iff_exists'.mp h.ended
  obtain ⟨trace, hnext⟩ := hnext
  rw [next_of_ended rounds h.pending hended] at hnext
  cases hnext
  exact h.ended

section NoRoutines

variable (hplain : NoRoutines ((t₀.lexicon.patterns? t₀.defaultMode).getD []))

include hplain

/-- A round scans at the cursor of a stream of which all is known, or else comes to the
end of the text. -/
theorem scanRound_within (h : Within t₀ t) : scanRound.Leaves t fun r t' =>
      (Within t₀ t' ∧ ∀ token, r = .ok (some token) →
        ∃ s c, t.current?.bind Stream.upcoming? = some s ∧ s.Legible t₀.master.toList ∧
        s.cursor = some c ∧ c.pos < c.line.length ∧ MadeOf (t.onto s) c token) ∨
      ((∃ token, r = .ok (some token)) ∧ Beyond t') := by
  obtain ⟨s, hcurrent, hs⟩ := h.current
  rw [scanRound_leaves hcurrent hs.isOpen, hcurrent, Option.bind_some]
  cases hup : s.upcoming? with
  | none =>
    obtain ⟨input, hinputs, -⟩ := h.inputs
    refine (endOfInput_leaves (onto_inputs hinputs { s with cursor := none })).mono fun r t' hr =>
      .inr ?_
    obtain ⟨-, -, ⟨token, -, rfl, hpending, hended⟩ | ⟨hmode, -⟩⟩ := hr
    · exact ⟨⟨token, rfl⟩, hpending.trans h.pending, hended ▸ Option.some_ne_none token⟩
    · exact absurd (h.setting.mode.trans h.setting.defaultMode.symm) hmode
  | some s' =>
    obtain ⟨hs', c, hc, hpos⟩ := hs.upcoming hup
    have hplain' : NoRoutines ((t.lexicon.patterns? t.mode).getD []) := by
      rw [h.setting.lexicon, h.setting.mode]
      exact hplain
    refine (scanAtCursor_legible (t := t.onto s') hplain' (current?_onto hcurrent s') hs' hc).mono
      fun r t' hr => .inl ?_
    obtain ⟨⟨s'', c', hmoves, hs'', -⟩, hmade⟩ := hr
    exact ⟨h.moves ((moves_onto t s').trans hmoves) hs'',
      fun token hr => ⟨s', c, rfl, hs', hc, hpos, hmade token hr⟩⟩

/-- Any number of rounds stays within the text, or makes a token of its end. -/
theorem Within.rounds (h : Within t₀ t) (rounds : Nat) :
    (Run.repeated scanRound rounds).Leaves t fun r t' =>
      Within t₀ t' ∨ ((∃ token, r = .ok token) ∧ Beyond t') := by
  refine Run.repeated_keeps (Within t₀) (fun t₁ hwithin => ?_)
    (fun t₁ hwithin => .inl hwithin) h rounds
  refine (scanRound_within hplain hwithin).mono fun r t₂ hr => ?_
  rcases r with fault | (_ | token)
  · rcases hr with ⟨hwithin, -⟩ | ⟨⟨token, htoken⟩, -⟩
    · exact .inl hwithin
    · cases htoken
  · rcases hr with ⟨hwithin, -⟩ | ⟨⟨token, htoken⟩, -⟩
    · exact hwithin
    · cases htoken
  · exact hr.imp And.left fun hr => ⟨⟨token, rfl⟩, hr.2⟩

/-- **A reached scanner** is within its text, or beyond it. -/
theorem Reached.within (h : Reached t₀ t) : Within t₀ t ∨ Beyond t := by
  induction h with
  | opened => exact .inl ⟨.refl _, rfl, rfl, _, rfl, Stream.legible_unread rfl rfl rfl rfl⟩
  | @next t _ rounds ih =>
    rcases ih with hwithin | hbeyond
    · rw [next_run hwithin.pending hwithin.ended hwithin.inputs_ne_nil]
      exact (hwithin.rounds hplain rounds).imp id And.right
    · obtain ⟨token, hended⟩ := Option.ne_none_iff_exists'.mp hbeyond.ended
      rw [next_of_ended rounds hbeyond.pending hended]
      exact .inr hbeyond

-- ---------------------------------------------------------------------------
-- The number of a token
-- ---------------------------------------------------------------------------

/-- A call for a token makes it in its last round, which scans at a cursor. -/
theorem Within.makes {rounds : Nat} {token : Token}
    (h : Within t₀ t) (hnext : (next rounds).Returns t token t') (hended : t'.ended = none) :
    ∃ k s c, ((next k).run t).result = .error .exhausted ∧ Makes ((next k).run t).state s c token ∧
      s.Legible t₀.master.toList ∧ c.pos < c.line.length ∧
      MadeOf (((next k).run t).state.onto s) c token ∧ ((next k).run t).state.lineLag = 0 := by
  have hrun := next_run h.pending h.ended h.inputs_ne_nil
  obtain ⟨trace, hnext⟩ := hnext
  rw [hrun] at hnext
  obtain ⟨k, hexhausted, hreturns⟩ := Run.returns_repeated ⟨trace, hnext⟩
  have hkeeps := h.rounds hplain k
  unfold Run.Leaves at hkeeps
  rw [← hrun] at hexhausted hreturns hkeeps
  rcases hkeeps with hwithin | ⟨⟨token', htoken'⟩, -⟩
  · rcases (scanRound_within hplain hwithin).of_returns hreturns with ⟨-, hmade⟩ | ⟨-, hbeyond⟩
    · obtain ⟨s, c, hup, hs, hc, hpos, hmade⟩ := hmade token rfl
      exact ⟨k, s, c, hexhausted, ⟨⟨t', hreturns⟩, hup, hc⟩, hs, hpos, hmade,
        hwithin.setting.lineLag⟩
    · exact absurd hended hbeyond.ended
  · cases hexhausted.symm.trans htoken'

/-- **The line number of a token** is that of the line in which its first character stands in the
text, or of the last line that a call has reached which stood behind that character, if that is a
later one. It is the line of the character exactly if no such call has reached a later one. -/
theorem line_of_token {rounds : Nat} {token : Token}
    (h : Reached t₀ t) (hnext : (next rounds).Returns t token t') (hended : t'.ended = none) :
    ∃ k s c, ((next k).run t).result = .error .exhausted ∧ Makes ((next k).run t).state s c token ∧
      (∃ text, token.value = .text text ∧ text.toList <+: c.rest) ∧
      (∃ threads, s.Woven t₀.master.toList threads) ∧ ∀ threads, s.Woven t₀.master.toList threads →
        ∀ i reach, threads[c.pos]? = some ⟨some i, reach⟩ → t₀.master.toList[i]? = c.line[c.pos]? ∧
        token.position.map Position.line =
          some ((max (lineAt t₀.master.toList i) (lineAt t₀.master.toList reach) : Nat) : Int) ∧
        (token.position.map Position.line = some (lineAt t₀.master.toList i : Int) ↔
          lineAt t₀.master.toList reach ≤ lineAt t₀.master.toList i) := by
  have hwithin : Within t₀ t :=
    (h.within hplain).resolve_right fun hbeyond => hbeyond.ended_ne hnext hended
  obtain ⟨k, s, c, hexhausted, hmakes, hs, hpos, hmade, hlag⟩ := hwithin.makes hplain hnext hended
  refine ⟨k, s, c, hexhausted, hmakes, ?_, hs.woven, fun threads hwoven i reach hthread => ?_⟩
  · cases hmade with
    | plain hmatch => exact ⟨_, rfl, _, (Regex.matchAt_split hmatch (Nat.le_of_lt hpos)).2.symm⟩
  · have hline : token.position.map Position.line = some (s.lineNo : Int) := by
      obtain ⟨s₀, hcurrent, -⟩ := Option.bind_eq_some_iff.mp hmakes.upcoming
      cases hmade with
      | plain _ =>
        unfold position
        rw [current?_onto hcurrent s]
        show some ((s.lineNo : Int) - ((next k).run t).state.lineLag) = _
        rw [hlag, Int.sub_zero]
    rw [hline, hwoven.lineNo_eq hs.numbered (List.mem_of_getElem? hthread) rfl]
    refine ⟨?_, rfl, ?_⟩
    · have hchars := hwoven.chars
      rw [Stream.line_of_cursor hmakes.cursor] at hchars
      obtain ⟨hlt, hd⟩ := List.getElem?_eq_some_iff.mp hthread
      have hstands : Stream.StandsAt t₀.master.toList threads[c.pos] c.line[c.pos] :=
        hchars.get hlt hpos
      rw [List.getElem?_eq_getElem hpos]
      exact hstands i (by rw [hd])
    · rw [Option.some.injEq, Int.natCast_inj]
      exact max_eq_left_iff

end NoRoutines

/-- Names of small letters and digits, and blanks that are passed over. -/
private def tokenPatterns : List TokenPattern :=
  [⟨some "ID", ⟨.repeated 1 none false (.oneOf false [.range 'a' 'z', .range '0' '9']), 0, {}⟩,
      none⟩,
    ⟨none, ⟨.repeated 1 none false (.oneOf false [.range ' ' ' ', .range '\n' '\n']), 0, {}⟩, none⟩]

/-- A token has a call inside that goes on in the next line, and another token follows. -/
private def split : Scanner :=
  { master := "a$\x7bx 1\n2\x7d b\n"
    lexicon := [(none, tokenPatterns)]
    defaultMode := none
    mode := none
    macros := ⟨[⟨"x", "0", none⟩]⟩ }

/-- The scanner after some tokens. -/
private def splitAfter : Nat → Scanner
  | 0 => ((start true).run split).state
  | n + 1 => ((next 9).run (splitAfter n)).state

/-- No pattern of that scanner has a routine. -/
private theorem plain_split : NoRoutines ((split.lexicon.patterns? split.defaultMode).getD []) := by
  intro p hp
  have hp : p ∈ tokenPatterns := hp
  unfold tokenPatterns at hp
  rcases List.mem_cons.mp hp with rfl | hp
  · rfl
  · rw [List.mem_singleton.mp hp]

/-- The second token, behind the call, has the number of its line. -/
theorem line_of_token_split : NoRoutines ((split.lexicon.patterns? split.defaultMode).getD []) ∧
    Reached split (splitAfter 1) ∧
    (next 9).Returns (splitAfter 1) ⟨"ID", .text "b", some ⟨"<buffer>", 2, 4⟩⟩ (splitAfter 2) ∧
    (splitAfter 2).ended = none ∧
    ∃ k s c, ((next k).run (splitAfter 1)).result = .error .exhausted ∧
      Makes ((next k).run (splitAfter 1)).state s c ⟨"ID", .text "b", some ⟨"<buffer>", 2, 4⟩⟩ ∧
      (∃ text, Value.text "b" = .text text ∧ text.toList <+: c.rest) ∧
      (∃ threads, s.Woven split.master.toList threads) ∧
      ∀ threads, s.Woven split.master.toList threads → ∀ i reach,
        threads[c.pos]? = some ⟨some i, reach⟩ → split.master.toList[i]? = c.line[c.pos]? ∧
        some 2 = some ((max (lineAt split.master.toList i) (lineAt split.master.toList reach) :
          Nat) : Int) ∧ (some 2 = some (lineAt split.master.toList i : Int) ↔
          lineAt split.master.toList reach ≤ lineAt split.master.toList i) := by
  have hreached : Reached split (splitAfter 1) := .next .opened 9
  have hnext : (next 9).Returns (splitAfter 1) ⟨"ID", .text "b", some ⟨"<buffer>", 2, 4⟩⟩
      (splitAfter 2) :=
    Run.returns_of_result (by decide +kernel)
  have hended : (splitAfter 2).ended = none := by decide +kernel
  exact ⟨plain_split, hreached, hnext, hended, line_of_token plain_split hreached hnext hended⟩

/-- The cursor at the call in the first line. -/
private def firstCursor : Cursor := ⟨"a$\x7bx 1\n".toList, 1⟩

/-- The stream at the call in the first line. -/
private def atFirstCall : Stream :=
  { (Stream.ofText split.master split.label).atNextLine with cursor := some firstCursor }

/-- The stream that the first token is made in, once the call has been replaced. -/
private def rescanned : Stream :=
  ((((next 1).run (splitAfter 0)).state.current?).bind Stream.upcoming?).getD default

/-- How the line of the first token has come about: its first character stands in the text, the
second is of the macro. -/
private theorem woven_rescanned : rescanned.Woven split.master.toList
    [⟨some 0, 8⟩, ⟨none, 0⟩, ⟨some 9, 0⟩, ⟨some 10, 0⟩, ⟨some 11, 0⟩] := by
  have hfirst : atFirstCall.Woven split.master.toList
      (Stream.stretch ((Stream.ofText split.master split.label).taken split.master.toList)
        (readLine (Stream.ofText split.master split.label).unread).1.length) :=
    .same (.line (.unread rfl rfl)) (by decide +kernel) rfl
  -- the call goes on in the second line
  have hreads : atFirstCall.ReadsOn firstCursor (readLine atFirstCall.unread).1
      (atFirstCall.grown (firstCursor.append [])) :=
    .further (.stays rfl) (by decide +kernel) (by decide +kernel)
  have hcall : Call.read? (firstCursor.append (readLine atFirstCall.unread).1).rest =
      some ⟨"x", ["1", "2"], 8⟩ := by
    decide +kernel
  have hline : rescanned.line =
      (firstCursor.line ++ (readLine atFirstCall.unread).1).take firstCursor.pos ++ ['0'] ++
      (firstCursor.line ++ (readLine atFirstCall.unread).1).drop (firstCursor.pos + 8) := by
    decide +kernel
  have hwoven := Stream.Woven.replaced hfirst hreads hcall (by decide +kernel) hline
  exact cast (congrArg (Stream.Woven split.master.toList rescanned) (by decide +kernel)) hwoven

/-- The number of a token need not be that of the line of its first character: the first token has a
call inside that goes on in the next line, and has the number of that. -/
theorem line_differs_split : ∃ token s c threads, Reached split (splitAfter 0) ∧
    (next 9).Returns (splitAfter 0) token (splitAfter 1) ∧ (splitAfter 1).ended = none ∧
    ((next 1).run (splitAfter 0)).result = .error .exhausted ∧
      Makes ((next 1).run (splitAfter 0)).state s c token ∧
    s.Woven split.master.toList threads ∧ threads[c.pos]? = some ⟨some 0, 8⟩ ∧
    lineAt split.master.toList 0 = 1 ∧ token.position.map Position.line = some 2 := by
  have hnext : (next 9).Returns (splitAfter 0) ⟨"ID", .text "a0", some ⟨"<buffer>", 2, 1⟩⟩
      (splitAfter 1) :=
    Run.returns_of_result (by decide +kernel)
  have hfirst : scanRound.Returns (splitAfter 0) none (scanRound.run (splitAfter 0)).state :=
    Run.returns_of_result (by decide +kernel)
  have hexhausted : ((next 1).run (splitAfter 0)).result = .error .exhausted := by
    obtain ⟨trace, hfirst⟩ := hfirst
    have hopen : (splitAfter 0).inputs.isEmpty = false := by decide +kernel
    rw [next_run (by decide +kernel) (by decide +kernel) (List.isEmpty_eq_false_iff.mp hopen),
      Run.run_repeated_succ, hfirst]
    rfl
  have hsecond : scanRound.Returns ((next 1).run (splitAfter 0)).state
      (some ⟨"ID", .text "a0", some ⟨"<buffer>", 2, 1⟩⟩)
        (scanRound.run ((next 1).run (splitAfter 0)).state).state :=
    Run.returns_of_result (by decide +kernel)
  have hup : (((next 1).run (splitAfter 0)).state.current?.bind Stream.upcoming?).isSome =
      true := by
    decide +kernel
  have hupcoming : ((next 1).run (splitAfter 0)).state.current?.bind Stream.upcoming? =
      some rescanned := by
    obtain ⟨s, hs⟩ := Option.isSome_iff_exists.mp hup
    unfold rescanned
    rw [hs]
    rfl
  have hcursor : rescanned.cursor = some ⟨"a0 b\n".toList, 0⟩ := by decide +kernel
  exact ⟨_, rescanned, _, _, .opened, hnext,
    by decide +kernel, hexhausted, ⟨⟨_, hsecond⟩, hupcoming, hcursor⟩,
    woven_rescanned, rfl, by decide +kernel, rfl⟩

end Scanner

end GrammarEngine
