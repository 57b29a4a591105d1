import GrammarEngine.Proofs.Scanner.Asking
import GrammarEngine.Proofs.Scanner.Departures
import GrammarEngine.Proofs.Scanner.Listed

/-!
# Unterminated tokens

An input that ends in another mode than the default mode is an error. It is reported at the line
where that token starts in which the default mode was left last, however the modes have been
switched since then, and whatever files have been included and read to their ends (`Followed`). But
the error names the file that ends. If the default mode was left in a file and the one that ends was
included from it, then the line is one of the first file and the name is that of the second.

Main results:

* `Followed.marked` — what a scanner keeps about the starts of tokens.
* `upcoming?_of_runaway` — when an unterminated token is reported.
* `runaway_reported` — where it is reported.
* `runaway_elsewhere` — a token that is reported in another file than its own.
-/

namespace GrammarEngine

namespace Scanner

variable {t₀ t t' : Scanner} {s s' : Stream} {begun : Option Position}
  {left : Option (Option Position)}

/-- A scanner is opened and used in any way: it scans one round after another, tokens are
pushed back and delivered again, and files are included. `begun` is the start of the token
that was scanned last. `left` is the same for the time when the default mode was left last, if
it has been left at all. -/
inductive Followed (t₀ : Scanner) : Scanner → Option Position → Option (Option Position) → Prop
  | opened (readsLabel : Bool) : Followed t₀ ((start readsLabel).run t₀).state none none
  | round {t : Scanner} {begun : Option Position} {left : Option (Option Position)}
      (h : Followed t₀ t begun left) :
      Followed t₀ (scanRound.run t).state (begunBy t begun)
        (if departs t.defaultMode t.mode (modesRun (roundRoutine? t)) then
          some (begunBy t begun) else left)
  | delivered {t : Scanner} {begun : Option Position} {left : Option (Option Position)}
      (h : Followed t₀ t begun left) :
      Followed t₀ { t with pending := none } begun left
  | pushedBack {t : Scanner} {begun : Option Position} {left : Option (Option Position)}
      (h : Followed t₀ t begun left) (token : Token) :
      Followed t₀ ((pushBack token).run t).state begun left
  | included {t : Scanner} {begun : Option Position} {left : Option (Option Position)}
      (h : Followed t₀ t begun left) (name : String)
      (position : Option Position) (atEnd : Routine) :
      Followed t₀ ((includeFile name position atEnd).run t).state begun left

/-- Every call for a token is part of such a use. -/
theorem Followed.next (h : Followed t₀ t begun left) (rounds : Nat) :
    ∃ begun' left', Followed t₀ ((next rounds).run t).state begun' left' := by
  show (Scanner.next rounds).Leaves t fun _ t' => ∃ begun' left', Followed t₀ t' begun' left'
  unfold Scanner.next
  rw [Run.leaves_get_bind]
  split
  · exact ⟨_, _, h.delivered⟩
  · exact ⟨_, _, h⟩
  · split
    · exact ⟨_, _, h⟩
    · refine Run.repeated_keeps (fun t' => ∃ begun' left', Followed t₀ t' begun' left')
        (fun t₁ h₁ => ?_) (fun t₁ h₁ => h₁) ⟨_, _, h⟩ rounds
      obtain ⟨_, _, h₁⟩ := h₁
      have hround : scanRound.Leaves t₁ fun _ t' =>
          ∃ begun' left', Followed t₀ t' begun' left' := ⟨_, _, h₁.round⟩
      refine hround.mono fun r t₂ hr => ?_
      rcases r with fault | (_ | token) <;> exact hr

/-- What a scanner has kept about the starts of tokens; its inputs have been opened. -/
structure Marked (t : Scanner) (begun : Option Position)
    (left : Option (Option Position)) : Prop where
  tokenStart : t.tokenStart = begun
  modeStart : t.modeStart = left.join
  away : t.mode ≠ t.defaultMode → left.isSome = true
  traced : t.Traced .call

/-- What a scanner has kept it keeps where neither its mode nor the starts change. -/
theorem Marked.of_sameStarts (h : Marked t begun left) (hsame : SameStarts t t')
    (htraced : t'.Traced .call) : Marked t' begun left := by
  refine ⟨hsame.tokenStart.trans h.tokenStart, hsame.modeStart.trans h.modeStart,
    fun haway => h.away ?_, htraced⟩
  rwa [hsame.mode, hsame.defaultMode] at haway

theorem start_marked (readsLabel : Bool) (t : Scanner) :
    (start readsLabel).Leaves t fun _ t' => Marked t' none none := by
  have hfirst {u : Scanner} {stream : Stream} (hu : Marked u none none) (hs : stream.Traced .call) :
      Marked { u with inputs := [{ stream := stream }] } none none := by
    refine hu.of_sameStarts ⟨rfl, rfl, rfl, rfl⟩ fun input hinput => ?_
    obtain rfl := List.mem_singleton.mp hinput
    exact hs
  unfold start
  rw [Run.leaves_modify_bind, Run.leaves_get_bind]
  generalize hreset : ({ t.close with
    readsLabel := readsLabel, ended := none, lineLag := 0, tokenStart := none, modeStart :=
      none, modeStack := [],
    mode := t.defaultMode } : Scanner) = u
  have hu : Marked u none none := by
    subst hreset
    refine ⟨rfl, rfl, fun haway => absurd rfl haway, fun input hinput => ?_⟩
    exact absurd hinput List.not_mem_nil
  dsimp only
  split
  · exact hfirst hu ⟨rfl, [], .unread rfl rfl⟩
  · have hopens : (openFile u.master "open_file" "Cannot open file " none).Leaves u fun r t' =>
        Marked t' none none ∧ ∀ stream, r = .ok stream → stream.Traced .call := by
      have hsame := keepsStarts_openFile u.master "open_file" "Cannot open file " none u
      obtain ⟨hinputs, hstream⟩ :=
        openFile_leaves .call u.master "open_file" "Cannot open file " none u
      exact ⟨hu.of_sameStarts hsame (hu.traced.of_inputs hinputs), hstream⟩
    exact hopens.bind (fun stream t₁ hr => hfirst hr.1 (hr.2 stream rfl)) fun fault t₁ hr => hr.1

/-- **What a scanner has kept** is where the token starts that was scanned last, and where the one
starts during whose scan the default mode was left last. In another mode it has been left. -/
theorem Followed.marked (h : Followed t₀ t begun left) : Marked t begun left := by
  induction h with
  | opened readsLabel => exact start_marked readsLabel t₀
  | @round t begun left _ ih =>
    have hthrough := scanRound_through fun s hs => (ih.traced.current hs).1
    have hbegun : begunBy t t.tokenStart = begunBy t begun := by rw [ih.tokenStart]
    refine ⟨hthrough.tokenStart.trans hbegun, ?_, fun haway => ?_, keeps_scanRound t ih.traced⟩
    · have hleft := hthrough.modeStart
      dsimp only at hleft
      rw [hleft, hbegun, ih.modeStart]
      split <;> rfl
    · rcases hthrough.away_or_departs haway with hbefore | hdeparts
      · have hbefore := ih.away hbefore
        split
        · rfl
        · exact hbefore
      · rw [if_pos hdeparts]
        rfl
  | delivered _ ih => exact ih.of_sameStarts ⟨rfl, rfl, rfl, rfl⟩ ih.traced
  | @pushedBack t _ _ _ token ih =>
    exact ih.of_sameStarts (keepsStarts_pushBack token t)
      (ih.traced.of_inputs (pushBack_inputs token t))
  | @included t _ _ _ name position atEnd ih =>
    exact ih.of_sameStarts (keepsStarts_includeFile name position atEnd t)
      (keeps_includeFile name position atEnd t ih.traced)

/-- The error of an input that must not end tells the line that was kept, and the input. -/
theorem endOfInput_runaway (hmode : t.mode ≠ t.defaultMode) (h : t.current? = some s) :
    let start := (t.modeStart.orElse fun _ => t.tokenStart).getD t.position
    ∃ m : Message, (endOfInput.run t).result = .error (.parse m) ∧ m.id = "runaway_token" ∧
      m.text = "Unterminated token starting at line " ++ toString start.line ∧
      m.position = some ⟨s.name, start.line, s.column⟩ := by
  intro start
  let lagging : Scanner := { t with lineLag := s.lineNo - start.line }
  have hposition : lagging.position = ⟨s.name, start.line, s.column⟩ := by
    have hcurrent : lagging.current? = some s := h
    unfold position
    rw [hcurrent]
    simp only [lagging]
    rw [Int.sub_sub_self]
  have hresult := errorAt_result (α := Option Token) "runaway_token"
    ("Unterminated token starting at line " ++ toString start.line) none .null lagging
  rw [Option.getD_none, hposition] at hresult
  have hends : endOfInput.Leaves t fun r _ => r = .error (.parse ⟨.error, "runaway_token",
      "Unterminated token starting at line " ++ toString start.line,
      some ⟨s.name, start.line, s.column⟩, lagging.line?, .null, lagging.history⟩) := by
    unfold endOfInput
    rw [Run.leaves_get_bind, if_pos (bne_iff_ne.mpr hmode), h]
    exact hresult
  exact ⟨_, hends, rfl, rfl, rfl⟩

/-- A round that runs no routine only reports an unterminated token at an end in another mode than
the default mode. -/
theorem upcoming?_of_runaway (hcurrent : t.current? = some s) (hopen : s.isClosed = false)
    (hquiet : roundRoutine? t = none) {m : Message}
    (hm : (scanRound.run t).result = .error (.parse m))
    (hid : m.id = "runaway_token") : s.upcoming? = none ∧ t.mode ≠ t.defaultMode := by
  unfold roundRoutine? at hquiet
  rw [hcurrent, Option.bind_some] at hquiet
  cases hup : s.upcoming? with
  | some s' =>
    obtain ⟨s₀, rfl, -, c, hc⟩ := Stream.upcoming?_tidied hup
    have hc : s₀.cleanup.cursor = some c := hc
    have hplain : ∀ p m, plan (t.onto s₀.cleanup) c = .token p m → p.routine = none := by
      intro p m hplan
      simpa [hup, hc, tokenRoutine?, hplan] using hquiet
    have hround : scanRound.Leaves t fun r _ =>
        Blames (s₀.cleanup.expansions.map Expansion.call) r := by
      rw [scanRound_leaves hcurrent hopen, hup]
      exact blames_scanAtCursor (current?_onto hcurrent _)
        ((Stream.isClosed_upcoming? hup).trans hopen) hc hplain
    have herror := (hround m hm).1
    rw [hid] at herror
    exact absurd herror (by decide)
  | none =>
    refine ⟨rfl, fun hhome => ?_⟩
    rw [hup] at hquiet
    dsimp only at hquiet
    rw [if_pos hhome] at hquiet
    -- the only input ends
    obtain ⟨input, hinputs⟩ : ∃ input, (t.onto { s with cursor := none }).inputs = [input] := by
      cases hinputs : t.inputs with
      | nil =>
        rw [current?, hinputs] at hcurrent
        cases hcurrent
      | cons input below =>
        cases below with
        | nil => exact ⟨_, onto_inputs hinputs _⟩
        | cons parent below =>
          rw [fileRoutine?, hinputs] at hquiet
          cases hquiet
    have hround : scanRound.Leaves t fun r _ => r ≠ .error (.parse m) := by
      rw [scanRound_leaves hcurrent hopen, hup]
      refine (endOfInput_leaves hinputs).mono fun r t' hr => ?_
      obtain ⟨-, -, ⟨token, -, rfl, -⟩ | ⟨hmode, -⟩⟩ := hr
      · rintro ⟨⟩
      · exact absurd hhome hmode
    exact hround hm

/-- **An unterminated token is reported** where an input ends in another mode than the default mode,
and only there, but for what routines report. The default mode has been left then. The error names
the line where that token starts during whose scan it was left last, but the input that ends. So it
names the place where that token starts exactly if that is the one. -/
theorem runaway_reported (h : Followed t₀ t begun left) (hcurrent : t.current? = some s)
    (hquiet : roundRoutine? t = none) :
    ((∃ m : Message, (scanRound.run t).result = .error (.parse m) ∧ m.id = "runaway_token") ↔
      s.upcoming? = none ∧ t.mode ≠ t.defaultMode) ∧
    ∀ m : Message, (scanRound.run t).result = .error (.parse m) → m.id = "runaway_token" →
      ∃ begun', left = some begun' ∧ ∀ start, begun' = some start →
        m.text = "Unterminated token starting at line " ++ toString start.line ∧
          m.position = some ⟨s.name, start.line, 0⟩ ∧
          ((∃ column, m.position = some ⟨start.file, start.line, column⟩) ↔
            s.name = start.file) := by
  have hmarked := h.marked
  have hopen : s.isClosed = false := (hmarked.traced.current hcurrent).1
  have hends (hend : s.upcoming? = none) (hmode : t.mode ≠ t.defaultMode) :=
    endOfInput_runaway (t := t.onto { s with cursor := none }) hmode (current?_onto hcurrent _)
  have hround (hend : s.upcoming? = none) : (scanRound.run t).result =
      (endOfInput.run (t.onto { s with cursor := none })).result := by
    have hleaves : scanRound.Leaves t fun r _ =>
        r = (endOfInput.run (t.onto { s with cursor := none })).result := by
      rw [scanRound_leaves hcurrent hopen, hend]
      rfl
    exact hleaves
  refine ⟨⟨?_, ?_⟩, fun m hm hid => ?_⟩
  · rintro ⟨m, hm, hid⟩
    exact upcoming?_of_runaway hcurrent hopen hquiet hm hid
  · rintro ⟨hend, hmode⟩
    obtain ⟨m, hm, hid, -⟩ := hends hend hmode
    exact ⟨m, (hround hend).trans hm, hid⟩
  · obtain ⟨hend, hmode⟩ := upcoming?_of_runaway hcurrent hopen hquiet hm hid
    obtain ⟨m', hm', -, htext, hposition⟩ := hends hend hmode
    obtain rfl : m' = m := by
      have hsame := hm'.symm.trans ((hround hend).symm.trans hm)
      injection hsame with hsame
      injection hsame
    obtain ⟨begun', rfl⟩ := Option.isSome_iff_exists.mp (hmarked.away hmode)
    refine ⟨begun', rfl, ?_⟩
    rintro start rfl
    have hkept : (t.onto { s with cursor := none }).modeStart = some start := hmarked.modeStart
    simp only [hkept, Option.orElse_some, Option.getD_some] at htext hposition
    refine ⟨htext, hposition, ?_⟩
    rw [hposition]
    constructor
    · rintro ⟨column, hcolumn⟩
      exact congrArg Position.file (Option.some.inj hcolumn)
    · intro hfile
      exact ⟨0, by rw [← hfile]; rfl⟩

-- ---------------------------------------------------------------------------
-- Brackets that are not closed
-- ---------------------------------------------------------------------------

/-- A file is opened, and so many rounds are made: the scanner, and the starts. -/
private def afterRounds (t₀ : Scanner) : Nat → Scanner × Option Position × Option (Option Position)
  | 0 => (((start false).run t₀).state, none, none)
  | n + 1 =>
    let (t, begun, left) := afterRounds t₀ n
    ((scanRound.run t).state, begunBy t begun,
      if departs t.defaultMode t.mode (modesRun (roundRoutine? t)) then
        some (begunBy t begun) else left)

private theorem followed_afterRounds (t₀ : Scanner) (n : Nat) :
    Followed t₀ (afterRounds t₀ n).1 (afterRounds t₀ n).2.1 (afterRounds t₀ n).2.2 := by
  induction n with
  | zero => exact .opened false
  | succ n ih => exact ih.round

/-- A pattern for a single character, and what is done where it is found. -/
private def charPattern (c : Char) (routine : Routine) : TokenPattern :=
  ⟨none, ⟨.char c, 0, {}⟩, some fun _ => routine⟩

/-- A character that is passed over. -/
private def skipped (c : Char) : TokenPattern := ⟨none, ⟨.char c, 0, {}⟩, none⟩

/-- An opening bracket leads to a mode in which a file may be included. -/
private def bracketing (text : String) : Scanner where
  master := "main"
  lexicon := [
    (none, [anyWord, skipped '\n',
      charPattern '(' (.pushMode (some "inside") (.done (some "OPEN") .nothing))]),
    (some "inside",
      [anyWord, skipped '\n',
        charPattern '%' (.includeFile "f" none .idle fun _ => .done none .nothing)])]
  defaultMode := none
  mode := none
  disk := ⟨[(Location.ofName "main", .text text), (Location.ofName "f", .text "x\n")]⟩

/-- Seven rounds in a text in which a bracket is not closed. -/
private def unclosed : Scanner × Option Position × Option (Option Position) :=
  afterRounds (bracketing "a\n(b\nc\n") 7

/-- The bracket is in the second line, and the error says so at the end of the third one. -/
theorem runaway_reported_bracket :
    ∃ m : Message, (scanRound.run unclosed.1).result = .error (.parse m) ∧ m.id = "runaway_token" ∧
      m.position = some ⟨"main", 2, 0⟩ ∧ ∃ column, m.position = some ⟨"main", 2, column⟩ := by
  have hfollowed : Followed _ unclosed.1 unclosed.2.1 unclosed.2.2 := followed_afterRounds _ 7
  have hleft : unclosed.2.2 = some (some ⟨"main", 2, 1⟩) := by decide +kernel
  have hname : unclosed.1.current?.map Stream.name = some "main" := by decide +kernel
  have hup : unclosed.1.current?.bind Stream.upcoming? = none :=
    Option.isNone_iff_eq_none.mp (by decide +kernel)
  have hquiet : roundRoutine? unclosed.1 = none := Option.isNone_iff_eq_none.mp (by decide +kernel)
  obtain ⟨s, hcurrent, hs⟩ := Option.map_eq_some_iff.mp hname
  rw [hcurrent, Option.bind_some] at hup
  obtain ⟨hraised, hplace⟩ := runaway_reported hfollowed hcurrent hquiet
  obtain ⟨m, hm, hid⟩ := hraised.mpr ⟨hup, by decide +kernel⟩
  obtain ⟨begun, hbegun, hplace⟩ := hplace m hm hid
  obtain ⟨-, hposition, hsame⟩ := hplace _ (Option.some.inj (hbegun.symm.trans hleft))
  rw [hs] at hposition hsame
  exact ⟨m, hm, hid, hposition, hsame.mpr rfl⟩

/-- **A token that is reported in another file than its own.** The bracket is in the second line of
the first file, and the file that is included behind it ends. The error is reported in that file, in
a line that it does not have. -/
theorem runaway_elsewhere :
    ∃ t begun m, Followed (bracketing "a\n(%\n") t begun (some (some ⟨"main", 2, 1⟩)) ∧
    (scanRound.run t).result = .error (.parse m) ∧ m.id = "runaway_token" ∧
      m.position = some ⟨"f", 2, 0⟩ := by
  have hfollowed := followed_afterRounds (bracketing "a\n(%\n") 6
  have hleft : (afterRounds (bracketing "a\n(%\n") 6).2.2 = some (some ⟨"main", 2, 1⟩) := by
    decide +kernel
  have hraised : (raised? (scanRound.run (afterRounds (bracketing "a\n(%\n") 6).1).result).map
      (fun m => (m.id, m.position)) = some ("runaway_token", some ⟨"f", 2, 0⟩) := by
    decide +kernel
  obtain ⟨m, hseen, hm⟩ := of_raised? hraised
  obtain ⟨hid, hposition⟩ := Prod.mk.inj hseen
  rw [hleft] at hfollowed
  exact ⟨_, _, m, hfollowed, hm, hid, hposition⟩

end Scanner

end GrammarEngine
