import GrammarEngine.Proofs.Inclusion.Textual
import GrammarEngine.Proofs.Inclusion.Walks
import GrammarEngine.Proofs.Parser.Failure
import GrammarEngine.Proofs.Parser.Stability

/-!
# Which recursive inclusions are refused

A file must not include itself, nor a file through which it is included. When the action of an
inclusion is called the scanner looks for the file among its open inputs. By then the token
behind the inclusion was read, and where the inclusion is the last statement of a file, that file
has been closed.

So the parse follows the files as a reader does that looks one word ahead. It is refused where the
file is still open, at once or when the cycle comes up once more. If all files of the cycle end with
the inclusion of the next one, and another file goes on below, none of them is open when it is
included again, and the parse goes on for ever.

Main results:

* `Past.advances`, `Past.meets` — the parser carries out one statement as the reader does.
* `Laid.results_of_comes`, `Laid.exhausted` — the parse comes to what reading comes to.
* `recursion_refused_iff` — which recursive inclusions are refused, and when the parse
  comes to an end.
* `not_refused_ending` — a cycle that is never noticed.
-/

namespace GrammarEngine

/-- The result in which a parse shows what reading came to. -/
inductive Library.Verdict.Shows (dir : String) : Library.Verdict → Except Fault Value → Prop
  | completed {value : Value} : Shows dir .completed (.ok value)
  | recursive {file : String} {fault : Fault} (h : fault.Tells "include_recursion"
      ("Recursive inclusion of " ++ Location.inside dir file ++ " detected")) :
      Shows dir (.recursive file) (.error fault)
  | missing {file reason : String} {fault : Fault} (h : fault.Tells "bad_include"
      ("Cannot open include file " ++ Location.inside dir file ++ ": " ++ reason)) :
      Shows dir (.missing file) (.error fault)

/-- A verdict is shown by a result of its own, and not by being cut short. -/
theorem Library.Verdict.Shows.ne_exhausted {dir : String} {verdict : Library.Verdict}
    {result : Except Fault Value} (h : verdict.Shows dir result) : result ≠ .error .exhausted := by
  cases h with
  | completed => exact nofun
  | recursive htells => exact fun heq => htells.ne_exhausted (Except.error.inj heq)
  | missing htells => exact fun heq => htells.ne_exhausted (Except.error.inj heq)

namespace Inclusion

open Agenda (left trimmed names)

variable {c t t₁ t₂ t₃ : Scanner} {path : String} {files : Library} {p : Parser Source}
  {statement : Statement} {values : List Value} {levels : List Level} {token : Token}
  {file other : String} {rest : List Statement}
  {agenda agenda' below : Agenda} {verdict : Library.Verdict} {fault : Fault}

-- ---------------------------------------------------------------------------
-- Refused inclusions
-- ---------------------------------------------------------------------------

/-- The action of an inclusion that is refused. -/
theorem perform_fails (hsource : p.source = some (.inr t))
    (h : (Scanner.includeFile file none .idle).Fails t fault) :
    (Parser.perform ((Statement.inclusion file).action
      ((Statement.inclusion file).words.map Value.text))).Fails p fault := by
  have hwork : (Action.scanning (do pure (Value.text (← Scanner.includeFile file none .idle))) :
      Run Source Value).Fails (.inr t) fault := TokenSource.either_fails_right (h.bind _)
  exact (Parser.onSource_fails hsource hwork).bind _

/-- If a file cannot be included, the statement that includes it is not completed. -/
theorem Stands.finish_fails
    (h : Stands p t₁ (endedLevel (.inclusion file) :: fileLevel values :: levels))
    (hback : (Scanner.pushBack token).Returns t₁ () t₂)
    (hfails : (Scanner.includeFile file none .idle).Fails t₂ fault) (rounds : Nat) :
    (Parser.finish rounds (some token)).Fails p fault := by
  obtain ⟨frame, parent, below, hstack, -, haction, hpattern, hvalues, -, -⟩ := h.behind_statement
  have hgiven : (Parser.giveBack (some token)).Returns p () (Inclusion.reading p t₂) :=
    Parser.giveBack_of_source h.source (TokenSource.either_returns_right hback)
  refine Parser.finish_fails hgiven hstack (Parser.reduce_fails hpattern (hvalues _) ?_)
  exact Parser.callAction_fails haction (perform_fails (by rfl) hfails)

section Breaks

variable (h : Stands p t (endedLevel (.inclusion file) :: fileLevel values :: levels))
  (hnext : Run.Yields Scanner.next t token t₁) (hback : (Scanner.pushBack token).Returns t₁ () t₂)
  (hfails : (Scanner.includeFile file none .idle).Fails t₂ fault)

include h hnext hback hfails

/-- An inclusion is refused, with another statement behind it. -/
theorem Stands.breaks_again {ahead : Statement} (hdenotes : Scanner.Denotes token ahead.first) :
    Parser.Breaks (site behindInclusion) p fault := by
  obtain ⟨n, hn⟩ := hnext
  have hstands := h.reading t₁
  refine .of_last (n := n) fun rounds hrounds => ?_
  exact Parser.round_fails_of_loopBack (transitions_ended (.inclusion file))
    (h.nextToken (hn rounds hrounds)) (hstands.transition?_ended (.inclusion file) hdenotes) rfl
      (hstands.finish_fails hback hfails rounds)

/-- An inclusion is refused that is the last statement of all. -/
theorem Stands.breaks_last (hend : token.isEnd = true) :
    Parser.Breaks (site behindInclusion) p fault := by
  obtain ⟨n, hn⟩ := hnext
  refine .of_last (n := n) fun rounds hrounds => ?_
  refine Parser.round_fails_of_settle (transitions_ended (.inclusion file))
    (h.nextToken (hn rounds hrounds)) (transition?_ended_isEnd (.inclusion file) hend _) ?_
  exact Parser.settle_fails rfl ((h.reading t₁).finish_fails hback hfails rounds)

end Breaks

-- ---------------------------------------------------------------------------
-- Files of a directory
-- ---------------------------------------------------------------------------

/-- A file that the system cannot open. -/
def Absent (disk : Disk) (name : String) : Prop :=
  ∃ cause reason, Stream.ofFile? disk name = .error cause ∧ cause.systemText? = some reason

/-- Open files have names of a directory, and so have those that they include, which are
there or absent. -/
def Sound (c : Scanner) (dir : String) (files : Library) (agenda : Agenda) : Prop :=
  ∀ entry ∈ agenda, Location.Plain entry.1 ∧ ∀ other, .inclusion other ∈ entry.2 →
    Location.Plain other ∧ (files.lookup other = none → Absent c.disk (Location.inside dir other))

/-- What is assumed of the files of a directory, whether or not they include each other
in cycles. -/
structure Directory (c : Scanner) (dir : String) (files : Library) : Prop where
  path : ∃ path, dir = Location.directory path
  quiet : Scanner.Quiet c.lexicon c.mode
  mode : c.mode = c.defaultMode
  stores : ∀ file body, files.lookup file = some body → Scanner.Stores c dir file (spelled body)
  sound : ∀ file body, files.lookup file = some body → Sound c dir files [(file, body)]

variable {dir : String}

/-- What holds of the files in front of a statement holds behind it. -/
theorem Sound.behind (h : Sound c dir files ((file, statement :: rest) :: below)) :
    Sound c dir files ((file, rest) :: below) := by
  intro entry hentry
  rcases List.mem_cons.mp hentry with rfl | hentry
  · obtain ⟨hplain, hothers⟩ := h _ (List.mem_cons_self ..)
    exact ⟨hplain, fun other hother => hothers other (List.mem_cons_of_mem _ hother)⟩
  · exact h entry (List.mem_cons_of_mem _ hentry)

/-- It holds of the files below. -/
theorem Sound.of_suffix (h : Sound c dir files agenda) (hsuffix : below <:+ agenda) :
    Sound c dir files below :=
  fun entry hentry => h entry (hsuffix.subset hentry)

/-- And it may be shown file by file. -/
theorem Sound.cons {entry : String × List Statement} (hentry : Sound c dir files [entry])
    (h : Sound c dir files agenda) : Sound c dir files (entry :: agenda) := by
  intro entry' hentry'
  rcases List.mem_cons.mp hentry' with rfl | hentry'
  · exact hentry _ (List.mem_singleton_self _)
  · exact h entry' hentry'

theorem Sound.plain (h : Sound c dir files agenda) :
    ∀ name ∈ names agenda, Location.Plain name := by
  intro name hname
  obtain ⟨entry, hentry, rfl⟩ := List.mem_map.mp hname
  exact (h entry hentry).1

-- ---------------------------------------------------------------------------
-- States of the parse
-- ---------------------------------------------------------------------------

/-- The parser is behind a complete statement of the first open file. -/
inductive Past (c : Scanner) (dir : String) (files : Library) (p : Parser Source)
    (statement : Statement) : Agenda → Prop
  | intro {t : Scanner} {values : List Value} {file : String} {rest : List Statement}
      {below : Agenda} (hstands : Stands p t [endedLevel statement, fileLevel values, rootLevel])
      (hlive : Scanner.Live c dir t (Agenda.spelled ((file, rest) :: below)))
      (hsound : Sound c dir files ((file, statement :: rest) :: below)) :
      Past c dir files p statement ((file, statement :: rest) :: below)

/-- The parser is at the first statement of the first open file. -/
inductive Ready (c : Scanner) (dir : String) (files : Library) :
    Site → Parser Source → Agenda → Prop
  | start {p : Parser Source} {t : Scanner} {main : String} {statement : Statement}
      {rest : List Statement} (hstands : Stands p t [rootLevel])
      (hlive : Scanner.Live c dir t (Agenda.spelled [(main, statement :: rest)]))
      (hsound : Sound c dir files [(main, statement :: rest)]) :
      Ready c dir files (site fileEntry) p [(main, statement :: rest)]
  | named {p : Parser Source} {t : Scanner} {values : List Value} {file other : String}
      {rest : List Statement} {below : Agenda}
      (hstands : Stands p t [begunLevel (.inclusion other), fileLevel values, rootLevel])
      (hlive : Scanner.Live c dir t ((file, other :: spelled rest) :: below.spelled))
      (hsound : Sound c dir files ((file, .inclusion other :: rest) :: below)) :
      Ready c dir files (site behindInclude) p ((file, .inclusion other :: rest) :: below)
  | past {p : Parser Source} {statement : Statement} {agenda : Agenda}
      (h : Past c dir files p statement agenda) : Ready c dir files (site statement.ended) p agenda

/-- A statement was begun: a word is complete, and an inclusion is to be named. -/
theorem Ready.of_begun (hstands : Stands p t [begunLevel statement, fileLevel values, rootLevel])
    (hlive : Scanner.Live c dir t ((file, statement.others ++ spelled rest) :: below.spelled))
    (hsound : Sound c dir files ((file, statement :: rest) :: below)) :
    Ready c dir files (site statement.begun) p ((file, statement :: rest) :: below) := by
  cases statement with
  | word text hword => exact .past (.intro hstands hlive hsound)
  | inclusion other => exact .named hstands hlive hsound

/-- Where the parser is not behind a statement, a round leads on within the statement. -/
theorem Ready.within (hdir : Directory c dir files) {s : Site} (h : Ready c dir files s p agenda) :
    (∃ statement, s = site statement.ended ∧ Past c dir files p statement agenda) ∨
    ∃ next p', Run.Yields (fun rounds => Parser.round rounds s) p (.inl next) p' ∧
      Ready c dir files next p' agenda := by
  cases h with
  | start hstands hlive hsound =>
    obtain ⟨token, t', hnext, hdenotes, -, hlive'⟩ := hlive.next_first hdir.quiet hdir.mode rfl
    obtain ⟨p', hround, hstands'⟩ := hstands.round_start hnext hdenotes
    exact .inr ⟨_, p', hround, .of_begun hstands' hlive' hsound⟩
  | named hstands hlive hsound =>
    obtain ⟨token, t', hdenotes, hnext, -, hlive'⟩ := Scanner.Live.next_word hdir.quiet hlive
    obtain ⟨p', hround, hstands'⟩ := hstands.round_name hnext hdenotes
    exact .inr ⟨_, p', hround, .past (.intro hstands' hlive' hsound)⟩
  | past h => exact .inl ⟨_, rfl, h⟩

-- ---------------------------------------------------------------------------
-- What the parse comes to
-- ---------------------------------------------------------------------------

/-- From a state on the parse comes to what reading comes to. -/
def Meets (dir : String) (s : Site) (p : Parser Source) (verdict : Library.Verdict) : Prop :=
  ∃ result, verdict.Shows dir result ∧ Parser.Arrives s p result

/-- A round may be made first. -/
theorem Meets.of_round {s next : Site} {p' : Parser Source}
    (hround : Run.Yields (fun rounds => Parser.round rounds s) p (.inl next) p')
    (h : Meets dir next p' verdict) : Meets dir s p verdict := by
  obtain ⟨result, hshows, harrives⟩ := h
  exact ⟨result, hshows, harrives.of_round hround⟩

section Statement

variable (hdir : Directory c dir files)

include hdir

/-- What is met behind a statement is met within it. -/
theorem meets_of_begun (hstands : Stands p t [begunLevel statement, fileLevel values, rootLevel])
    (hlive : Scanner.Live c dir t ((file, statement.others ++ spelled rest) :: below.spelled))
    (hsound : Sound c dir files ((file, statement :: rest) :: below))
    (hpast : ∀ p', Past c dir files p' statement ((file, statement :: rest) :: below) →
      Meets dir (site statement.ended) p' verdict) :
    Meets dir (site statement.begun) p verdict := by
  cases statement with
  | word text hword => exact hpast p (.intro hstands hlive hsound)
  | inclusion other =>
    obtain ⟨token, t', hdenotes, hnext, -, hlive'⟩ := Scanner.Live.next_word hdir.quiet hlive
    obtain ⟨p', hround, hstands'⟩ := hstands.round_name hnext hdenotes
    exact .of_round hround (hpast p' (.intro hstands' hlive' hsound))

/-- What is met behind the first statement is met at it. -/
theorem Ready.meets {s : Site} (h : Ready c dir files s p agenda)
    (hpast : ∀ statement p', Past c dir files p' statement agenda →
      Meets dir (site statement.ended) p' verdict) :
    Meets dir s p verdict := by
  cases h with
  | start hstands hlive hsound =>
    obtain ⟨token, t', hnext, hdenotes, -, hlive'⟩ := hlive.next_first hdir.quiet hdir.mode rfl
    obtain ⟨p', hround, hstands'⟩ := hstands.round_start hnext hdenotes
    exact .of_round hround (meets_of_begun hdir hstands' hlive' hsound (hpast _))
  | named hstands hlive hsound => exact meets_of_begun hdir hstands hlive hsound (hpast _)
  | past h => exact hpast _ p h

/-- The next statement is read, with the word behind it, and an action puts statements in
front of that. -/
theorem Stands.ready_again {ahead : Statement}
    (hstands : Stands p t [endedLevel statement, fileLevel values, rootLevel])
    (hahead : Run.Yields Scanner.next t token t₁) (hdenotes : Scanner.Denotes token ahead.first)
    (hback : (Scanner.pushBack token).Returns t₁ () t₂) (hacts : Acts statement t₂ t₃)
    (hlive : Scanner.Live c dir t₃ agenda.spelled) (hleft : left agenda ≠ [])
    (hsound : Sound c dir files agenda) :
    ∃ next p',
      Run.Yields (fun rounds => Parser.round rounds (site statement.ended)) p (.inl next) p' ∧
      Ready c dir files next p' (trimmed agenda) := by
  obtain ⟨file, next, rest, below, hfirst⟩ := Agenda.exists_trimmed hleft
  obtain ⟨token', t₄, hnext, hdenotes', -, hlive'⟩ := hlive.next_first hdir.quiet hdir.mode hfirst
  obtain ⟨p', hround, hstands'⟩ := hstands.round_again hahead hdenotes hback hacts hnext hdenotes'
  have hsound' := hsound.of_suffix agenda.trimmed_suffix
  rw [hfirst] at hsound' ⊢
  exact ⟨_, p', hround, .of_begun hstands' hlive' hsound'⟩

/-- **The parser goes on** as the reader does. -/
theorem Past.advances (h : Past c dir files p statement agenda)
    (hadvances : files.Advances agenda agenda') :
    ∃ next p',
      Run.Yields (fun rounds => Parser.round rounds (site statement.ended)) p (.inl next) p' ∧
      Ready c dir files next p' agenda' := by
  cases h with
  | @intro t values file rest below hstands hlive hsound =>
    unfold Library.Advances at hadvances
    by_cases hleft : left ((file, rest) :: below) = []
    · obtain ⟨verdict, hstop⟩ : ∃ verdict,
          files.advance ((file, statement :: rest) :: below) = .inr verdict :=
        Library.exists_verdict_of_last hleft statement
      cases hstop.symm.trans hadvances
    obtain ⟨token, ahead, t₁, t₂, hahead, hdenotes, hback, hpending, hlive₂⟩ :=
      hlive.peek hdir.quiet hdir.mode hleft
    have hkept : Sound c dir files (trimmed ((file, rest) :: below)) :=
      hsound.behind.of_suffix (Agenda.trimmed_suffix _)
    have hleft₂ : left (trimmed ((file, rest) :: below)) ≠ [] := by
      rw [Agenda.left_trimmed]
      exact hleft
    cases statement with
    | word text hword =>
      rw [Library.advance_word_cons, if_neg hleft] at hadvances
      obtain rfl := Sum.inl.inj hadvances
      have hready := hstands.ready_again hdir hahead hdenotes hback .word hlive₂ hleft₂ hkept
      rwa [Agenda.trimmed_trimmed] at hready
    | inclusion other =>
      by_cases hopen : other ∈ names (trimmed ((file, rest) :: below))
      · cases (Library.advance_open hopen).symm.trans hadvances
      cases hfile : files.lookup other with
      | none => cases (Library.advance_missing hopen hfile).symm.trans hadvances
      | some body =>
        rw [Library.advance_found hopen hfile, if_neg hleft] at hadvances
        obtain rfl := Sum.inl.inj hadvances
        obtain ⟨-, hothers⟩ := hsound _ (List.mem_cons_self ..)
        obtain ⟨hname, -⟩ := hothers other (List.mem_cons_self ..)
        obtain ⟨path, rfl⟩ := hdir.path
        have hnew : ∀ entry ∈ Agenda.spelled (trimmed ((file, rest) :: below)),
            Location.Plain entry.1 ∧ entry.1 ≠ other := by
          intro entry hentry
          have hkeptName : entry.1 ∈ names (trimmed ((file, rest) :: below)) := by
            rw [← Agenda.map_spelled]
            exact List.mem_map_of_mem hentry
          exact ⟨hkept.plain _ hkeptName, fun heq => hopen (heq ▸ hkeptName)⟩
        obtain ⟨t₃, hinclude, -, hlive₃⟩ :=
          hlive₂.includeFile hpending hname hnew (hdir.stores other body hfile)
        have hfront : Scanner.Live c _ t₃
            (Agenda.spelled ((other, body) :: trimmed ((file, rest) :: below))) := hlive₃
        exact hstands.ready_again hdir hahead hdenotes hback (.inclusion hinclude) hfront
          (List.append_ne_nil_of_right_ne_nil _ hleft₂) (.cons (hdir.sound other body hfile) hkept)

omit hdir in
/-- An inclusion that the reader stops at is refused, unless it finds its file. -/
theorem meets_of_stop {s : Site}
    (hsound : Sound c dir files ((file, .inclusion other :: rest) :: below))
    (hopened : Scanner.Opened dir (names (trimmed ((file, rest) :: below))) t)
    (hdisk : t.disk = c.disk) (hbreaks :
      ∀ fault, (Scanner.includeFile other none .idle).Fails t fault → Parser.Breaks s p fault)
    (hstop : files.advance ((file, .inclusion other :: rest) :: below) = .inr verdict) :
    Meets dir s p verdict ∨
      (other ∉ names (trimmed ((file, rest) :: below)) ∧
        ∃ body, files.lookup other = some body) := by
  have hplain := (hsound.behind.of_suffix (Agenda.trimmed_suffix _)).plain
  obtain ⟨-, hothers⟩ := hsound _ (List.mem_cons_self ..)
  obtain ⟨hname, habsent⟩ := hothers other (List.mem_cons_self ..)
  by_cases hopen : other ∈ names (trimmed ((file, rest) :: below))
  · obtain rfl := Sum.inr.inj ((Library.advance_open hopen).symm.trans hstop)
    obtain ⟨fault, htells, hfails⟩ := hopened.includeFile_recursive hname hplain hopen
    exact .inl ⟨_, .recursive htells, hbreaks fault hfails⟩
  cases hfile : files.lookup other with
  | some body => exact .inr ⟨hopen, body, rfl⟩
  | none =>
    obtain rfl := Sum.inr.inj ((Library.advance_missing hopen hfile).symm.trans hstop)
    obtain ⟨cause, reason, hcause, hreason⟩ := habsent hfile
    rw [← hdisk] at hcause
    obtain ⟨fault, htells, hfails⟩ := hopened.includeFile_missing hname hplain hopen hcause hreason
    exact .inl ⟨_, .missing htells, hbreaks fault hfails⟩

/-- **The parser stops** where the reader does, with what shows that. -/
theorem Past.meets (h : Past c dir files p statement agenda)
    (hstop : files.advance agenda = .inr verdict) : Meets dir (site statement.ended) p verdict := by
  cases h with
  | @intro t values file rest below hstands hlive hsound =>
    by_cases hleft : left ((file, rest) :: below) = []
    · -- the statement was the last one of all, and the end of the input is behind it
      obtain ⟨rfl, rfl⟩ := hlive.last_of_left hleft
      obtain ⟨token, t₁, hnext, hover, hdisk⟩ := hlive.next_end hdir.quiet hdir.mode
      obtain ⟨hback, hdone⟩ := hover.done.pushBack hover.pending
      cases statement with
      | word text hword =>
        rw [Library.advance_word_cons, if_pos hleft] at hstop
        obtain rfl := Sum.inr.inj hstop
        exact ⟨_, .completed, hstands.concludes_ended hnext hover.isEnd hback .word hdone⟩
      | inclusion other =>
        rcases meets_of_stop hsound hover.opened hdisk
          (fun fault hfails => hstands.breaks_last hnext hback hfails hover.isEnd) hstop with
          hmeets | ⟨hopen, body, hfile⟩
        · exact hmeets
        -- the file is opened, and never read
        rw [Library.advance_found hopen hfile, if_pos hleft] at hstop
        obtain rfl := Sum.inr.inj hstop
        obtain ⟨path, rfl⟩ := hdir.path
        obtain ⟨hfileName, hothers⟩ := hsound _ (List.mem_cons_self ..)
        obtain ⟨hname, -⟩ := hothers other (List.mem_cons_self ..)
        have hmain : Location.Plain file ∧ file ≠ other :=
          ⟨hfileName, fun heq => hopen (heq ▸ List.mem_singleton_self file)⟩
        obtain ⟨t₃, hinclude, hdone₃⟩ :=
          hover.includeFile hname hmain hdisk (hdir.stores other body hfile)
        exact ⟨_, .completed,
          hstands.concludes_ended hnext hover.isEnd hback (.inclusion hinclude) hdone₃⟩
    · obtain ⟨token, ahead, t₁, t₂, hahead, hdenotes, hback, -, hlive₂⟩ :=
        hlive.peek hdir.quiet hdir.mode hleft
      cases statement with
      | word text hword =>
        rw [Library.advance_word_cons, if_neg hleft] at hstop
        cases hstop
      | inclusion other =>
        have hopened := hlive₂.opened
        rw [Agenda.map_spelled] at hopened
        rcases meets_of_stop hsound hopened hlive₂.disk
          (fun fault hfails => hstands.breaks_again hahead hback hfails hdenotes) hstop with
          hmeets | ⟨hopen, body, hfile⟩
        · exact hmeets
        · rw [Library.advance_found hopen hfile, if_neg hleft] at hstop
          cases hstop

end Statement

-- ---------------------------------------------------------------------------
-- Rounds after rounds
-- ---------------------------------------------------------------------------

section Rounds

variable (hdir : Directory c dir files) {s : Site}

include hdir

/-- What reading comes to is what the parse comes to. -/
theorem Ready.meets_of_comes (hcomes : files.Comes agenda verdict)
    (h : Ready c dir files s p agenda) : Meets dir s p verdict := by
  induction hcomes generalizing s p with
  | stop hstop => exact h.meets hdir fun statement p' hpast => hpast.meets hdir hstop
  | step hstep _ ih =>
    refine h.meets hdir fun statement p' hpast => ?_
    obtain ⟨next, p'', hround, hready⟩ := hpast.advances hdir hstep
    exact .of_round hround (ih hready)

/-- Where reading comes to nothing, any number of rounds is used up. -/
theorem Ready.exhausted (h : Ready c dir files s p agenda)
    (hnever : ∀ verdict, ¬ files.Comes agenda verdict)
    (rounds n : Nat) : (Run.iterate (Parser.round rounds) n s).Fails p .exhausted := by
  let inv (s : Site) (p : Parser Source) : Prop :=
    ∃ agenda, Ready c dir files s p agenda ∧ ∀ verdict, ¬ files.Comes agenda verdict
  have hstep : ∀ s p, inv s p →
      ∃ next p', Run.Yields (fun rounds => Parser.round rounds s) p (.inl next) p' ∧
      inv next p' := by
    rintro s p ⟨agenda, hready, hnever⟩
    rcases hready.within hdir with ⟨statement, rfl, hpast⟩ | ⟨next, p', hround, hready'⟩
    · cases hadvance : files.advance agenda with
      | inr verdict => exact absurd (.stop hadvance) (hnever verdict)
      | inl agenda' =>
        obtain ⟨next, p', hround, hready'⟩ := hpast.advances hdir hadvance
        exact ⟨next, p', hround, agenda', hready',
          fun verdict hcomes => hnever verdict (.step hadvance hcomes)⟩
    · exact ⟨next, p', hround, agenda, hready', hnever⟩
  exact Run.iterate_exhausted (Parser.stable_round TokenSource.stable_next) inv hstep
    ⟨agenda, h, hnever⟩ rounds n

end Rounds

-- ---------------------------------------------------------------------------
-- The whole parse
-- ---------------------------------------------------------------------------

/-- A main file that a scanner reads, and the files beside it. Read alone, each of them
consists of whole statements. They may include each other in cycles, and they may include
files that are not there. -/
structure Laid (s : Scanner) (files : Library) (main : String) (body : List Statement) : Prop where
  quiet : Scanner.Quiet s.lexicon s.defaultMode
  plain : ∀ file body, files.lookup file = some body → Location.Plain file
  named : ∀ file body, files.lookup file = some body →
    ∀ other, .inclusion other ∈ body → Location.Plain other
  consists : ∀ file body, files.lookup file = some body →
    Scanner.Consists s (Location.inside (Location.directory s.master) file) (spelled body)
  absent : ∀ file body, files.lookup file = some body → ∀ other, .inclusion other ∈ body →
    files.lookup other = none → Absent s.disk (Location.inside (Location.directory s.master) other)
  found : files.lookup main = some body
  master : Scanner.Consists s s.master (spelled body)
  place : Location.ofName s.master =
    Location.ofName (Location.inside (Location.directory s.master) main)

/-- The parse of the tokens of a scanner. -/
def parsing (t : Scanner) (rounds : Nat) : Run (Parser Source) Value :=
  declare >>= fun _ => Parser.parse rounds "file" (.inr t)

theorem stable_parsing (t : Scanner) : Run.Stable (parsing t) :=
  Run.stable_bind (Run.stable_const _) fun _ =>
    Parser.stable_parse TokenSource.stable_next "file" (.inr t)

/-- A scanner is opened on its main file, and the parse of its tokens ends with a value
or a fault. -/
def Results (s : Scanner) (result : Except Fault Value) : Prop :=
  ∃ t o, (Scanner.start false).Returns s () t ∧ Run.Ends (parsing t) blank o ∧ o.result = result

/-- The parse ends with the error that a file is included recursively. -/
def Refuses (s : Scanner) (file : String) : Prop := ∃ fault, Results s (.error fault) ∧
  fault.Tells "include_recursion"
    ("Recursive inclusion of " ++ Location.inside (Location.directory s.master) file ++ " detected")

/-- A scanner comes to one result. -/
theorem Results.unique {s : Scanner} {result result' : Except Fault Value} (h : Results s result)
    (h' : Results s result') : result = result' := by
  obtain ⟨t, o, hstart, hends, rfl⟩ := h
  obtain ⟨t', o', hstart', hends', rfl⟩ := h'
  obtain ⟨-, rfl⟩ := hstart.unique hstart'
  rw [hends.unique hends']

section Laid

variable {s : Scanner} {main : String} {body : List Statement}

/-- The scanner is opened, and reads the main file. -/
theorem Laid.opened (h : Laid s files main body) :
    ∃ stream, (Scanner.start false).Returns s () (s.opened stream) ∧
    Directory (s.opened stream) (Location.directory s.master) files ∧
    Scanner.Live (s.opened stream) (Location.directory s.master) (s.opened stream)
      (Agenda.spelled [(main, body)]) := by
  obtain ⟨stream, hstart, hlive⟩ := h.master.live h.quiet h.place
  refine ⟨stream, hstart, ⟨⟨_, rfl⟩, h.quiet, rfl, ?_, ?_⟩, hlive⟩
  · exact fun file body hfile => (h.consists file body hfile).stores h.quiet stream
  · intro file body hfile entry hentry
    obtain rfl := List.mem_singleton.mp hentry
    exact ⟨h.plain file body hfile, fun other hother =>
      ⟨h.named file body hfile other hother, h.absent file body hfile other hother⟩⟩

/-- What the rounds come to, the parse does. -/
theorem results_of_arrives {t : Scanner} {result : Except Fault Value}
    (hstart : (Scanner.start false).Returns s () t)
    (harrives : Parser.Arrives (site fileEntry) (started t) result)
    (hfinished : result ≠ .error .exhausted) : Results s result := by
  obtain ⟨r, hprepare, hid⟩ := prepare_declared
  rw [site_start] at harrives
  obtain ⟨n, hn⟩ := Parser.parse_of_arrives hprepare (find?_start hid) harrives
  have hresult : ((parsing t n).run blank).result = result := by
    rw [← hn n (Nat.le_refl n)]
    exact declare_returns.result_bind
  refine ⟨t, _, hstart, (stable_parsing t).ends (n := n) ?_, hresult⟩
  rw [hresult]
  exact hfinished

/-- **The parse comes to what reading comes to.** -/
theorem Laid.results_of_comes (h : Laid s files main body)
    (hcomes : files.Comes [(main, body)] verdict) :
    ∃ result, verdict.Shows (Location.directory s.master) result ∧ Results s result := by
  obtain ⟨stream, hstart, hdir, hlive⟩ := h.opened
  have hmeets : Meets (Location.directory s.master) (site fileEntry) (started (s.opened stream))
      verdict := by
    cases body with
    | nil =>
      obtain ⟨token, t', hnext, hover, -⟩ := hlive.next_end hdir.quiet hdir.mode
      cases hcomes with
      | stop hstop =>
        obtain rfl := Sum.inr.inj (hstop.symm.trans (Library.advance_nil files main []))
        exact ⟨_, .completed, (stands_started _).concludes_empty hnext hover.done⟩
      | step hstep => cases hstep.symm.trans (Library.advance_nil files main [])
    | cons statement rest =>
      exact Ready.meets_of_comes hdir hcomes
        (.start (stands_started _) hlive (hdir.sound main _ h.found))
  obtain ⟨result, hshows, harrives⟩ := hmeets
  exact ⟨result, hshows, results_of_arrives hstart harrives hshows.ne_exhausted⟩

/-- **Where reading comes to nothing** the parse does not end, whatever the number of rounds. -/
theorem Laid.exhausted (h : Laid s files main body)
    (hnever : ∀ verdict, ¬ files.Comes [(main, body)] verdict) :
    ∃ t, (Scanner.start false).Returns s () t ∧
      ∀ rounds, (parsing t rounds).Fails blank .exhausted := by
  obtain ⟨stream, hstart, hdir, hlive⟩ := h.opened
  refine ⟨s.opened stream, hstart, fun rounds => ?_⟩
  cases body with
  | nil => exact absurd (.stop (Library.advance_nil files main [])) (hnever _)
  | cons statement rest =>
    have hready : Ready (s.opened stream) _ files (site fileEntry) (started (s.opened stream)) _ :=
      .start (stands_started _) hlive (hdir.sound main _ h.found)
    have hrounds := hready.exhausted hdir hnever rounds rounds
    obtain ⟨r, hprepare, hid⟩ := prepare_declared
    rw [site_start] at hrounds
    exact declare_returns.bind_fails
      (Parser.parse_fails_of_iterate hprepare (find?_start hid) hrounds)

/-- Where reading never comes to a verdict, parsing never comes to a result. -/
theorem Laid.not_results (h : Laid s files main body)
    (hnever : ∀ verdict, ¬ files.Comes [(main, body)] verdict)
    (result : Except Fault Value) : ¬ Results s result := by
  rintro ⟨t, o, hstart, ⟨hfinished, n, hn⟩, -⟩
  obtain ⟨t', hstart', hexhausted⟩ := h.exhausted hnever
  obtain ⟨-, rfl⟩ := hstart.unique hstart'
  rw [← hn n (Nat.le_refl n)] at hfinished
  exact hfinished (hexhausted n)

/-- The parse ends exactly if reading does. -/
theorem Laid.results_iff (h : Laid s files main body) :
    (∃ result, Results s result) ↔ ∃ verdict, files.Comes [(main, body)] verdict := by
  constructor
  · rintro ⟨result, hresult⟩
    by_contra hnever
    exact h.not_results (fun verdict hcomes => hnever ⟨verdict, hcomes⟩) result hresult
  · rintro ⟨verdict, hcomes⟩
    obtain ⟨result, -, hresult⟩ := h.results_of_comes hcomes
    exact ⟨result, hresult⟩

/-- An inclusion is refused if reading comes to that. -/
theorem Laid.refuses_of_comes (h : Laid s files main body)
    (hcomes : files.Comes [(main, body)] (.recursive file)) : Refuses s file := by
  obtain ⟨result, hshows, hresult⟩ := h.results_of_comes hcomes
  cases hshows with
  | recursive htells => exact ⟨_, hresult, htells⟩

/-- **Every recursive inclusion is refused**, and every parse ends, where no cycle consists of files
that end with the inclusion of the next one. -/
theorem Laid.recursion_refused (h : Laid s files main body)
    (hends : ∀ file, ¬ Relation.TransGen files.Ends file file) :
    (∀ file other rest below, files.Reached main body ((file, .inclusion other :: rest) :: below) →
      other ∈ names ((file, rest) :: below) → ∃ name, Refuses s name) ∧
      ∃ result, Results s result := by
  have hspent : ∀ file other rest below,
      files.Reached main body ((file, .inclusion other :: rest) :: below) →
      ¬ Agenda.Spent ((file, rest) :: below) other :=
    fun file other rest below hreached hspent => hends other (hreached.ends_of_spent h.found hspent)
  refine ⟨fun file other rest below hreached hinside => ?_, h.results_iff.mpr ?_⟩
  · obtain ⟨name, hcomes⟩ :=
      Library.comes_recursive_of_not_spent h.found hreached hinside
        (hspent file other rest below hreached)
    exact ⟨name, h.refuses_of_comes hcomes⟩
  · exact (Library.comes_iff h.found).mpr fun file other rest below hreached _ =>
      hspent file other rest below hreached

/--
**Recursive inclusions.** Where an inclusion is read of the current file, or of one through
which that is included, an inclusion is refused as recursive, except where all these files are
read to their end and another one goes on below. And the parse comes to an end exactly if
there is no such exception.
-/
theorem recursion_refused_iff (h : Laid s files main body) :
    (∀ file other rest below, files.Reached main body ((file, .inclusion other :: rest) :: below) →
      other ∈ names ((file, rest) :: below) →
        ((∃ name, Refuses s name) ↔ ¬ Agenda.Spent ((file, rest) :: below) other)) ∧
    ((∃ result, Results s result) ↔
      ∀ file other rest below, files.Reached main body ((file, .inclusion other :: rest) :: below) →
        other ∈ names ((file, rest) :: below) → ¬ Agenda.Spent ((file, rest) :: below) other) := by
  refine ⟨fun file other rest below hreached hinside => ⟨?_, fun hspent => ?_⟩,
    h.results_iff.trans (Library.comes_iff h.found)⟩
  · rintro ⟨name, fault, hresult, -⟩ hspent
    exact h.not_results
      (fun verdict => Library.not_comes_of_spent h.found hreached hspent) _ hresult
  · obtain ⟨name, hcomes⟩ := (Library.comes_recursive_iff h.found hreached hinside).mpr hspent
    exact ⟨name, h.refuses_of_comes hcomes⟩

end Laid

-- ---------------------------------------------------------------------------
-- Files that include each other
-- ---------------------------------------------------------------------------

/-- A scanner of files that are all there. -/
private theorem laid_reader {texts : List (String × String)} {body : List Statement}
    (hplain : ∀ entry ∈ files, entry.1 ≠ "" ∧ entry.1 ≠ "." ∧ entry.1 ≠ ".." ∧ '/' ∉ entry.1.toList)
    (hread : ∀ entry ∈ files, (openedOn texts entry.1).result.toOption = some () ∧
      Scanner.delivered? 30 9 (openedOn texts entry.1).state = some (spelled entry.2))
    (hinclusions : ∀ entry ∈ files,
      ∀ other ∈ inclusions entry.2, (files.lookup other).isSome = true)
    (hmain : files.lookup "main" = some body) : Laid (reader texts) files "main" body := by
  have hincluded : ∀ file body, files.lookup file = some body → ∀ other, .inclusion other ∈ body →
      ∃ inner, files.lookup other = some inner :=
    Library.forall_lookup fun entry hentry other hother =>
      Option.isSome_iff_exists.mp (hinclusions entry hentry other (mem_inclusions hother))
  refine ⟨quiet_basicLexicon, plain_of_entries hplain, fun file body hfile other hother => ?_,
    fun file body hfile => ?_, fun file body hfile other hother hnone => ?_, hmain,
    consists_reader hread "main" body hmain, ?_⟩
  · obtain ⟨inner, hinner⟩ := hincluded file body hfile other hother
    exact plain_of_entries hplain other inner hinner
  · rw [beside_reader]
    exact consists_reader hread file body hfile
  · obtain ⟨inner, hinner⟩ := hincluded file body hfile other hother
    cases hnone.symm.trans hinner
  · rw [beside_reader]
    rfl

/-- Two files that include each other, and go on behind the inclusions. -/
private def twins : Library :=
  [("main", [.inclusion "a", .word "end" (by decide)]),
    ("a", [.word "begin" (by decide), .inclusion "main", .word "more" (by decide)])]

/-- The main file includes another one that includes the main file. -/
private def twinsReader : Scanner :=
  reader [("main", "include a end\n"), ("a", "begin include main more\n")]

/-- Those files are laid out as the scanner finds them. -/
private theorem laid_twins :
    Laid twinsReader twins "main" [.inclusion "a", .word "end" (by decide)] :=
  laid_reader (by decide +kernel) (by decide +kernel) (by decide +kernel) rfl

theorem recursion_refused_twins :
    Laid twinsReader twins "main" [.inclusion "a", .word "end" (by decide)] ∧
    ∃ name, Refuses twinsReader name := by
  refine ⟨laid_twins, ((recursion_refused_iff laid_twins).1 "a" "main" [.word "more" (by decide)]
    [("main", [.word "end" (by decide)])] ?_ (by decide)).mpr ?_⟩
  · exact .tail (.tail .refl (.inclusion (by decide) (by decide) (by rfl))) .word
  · rintro ⟨upper, lower, heq, -⟩
    have hspent : ("main", []) ∈ [("a", [Statement.word "more" (by decide)]),
        ("main", [.word "end" (by decide)])] :=
      heq ▸ List.mem_append_right _ (List.mem_cons_self ..)
    revert hspent
    decide

/-- A file that ends with its own inclusion, while the main file goes on. -/
private def endless : Library :=
  [("main", [.inclusion "f", .word "rest" (by decide)]), ("f", [.inclusion "f"])]

/-- A file that ends with the inclusion of itself. -/
private def endlessReader : Scanner := reader [("main", "include f rest\n"), ("f", "include f\n")]

private theorem laid_endless :
    Laid endlessReader endless "main" [.inclusion "f", .word "rest" (by decide)] :=
  laid_reader (by decide +kernel) (by decide +kernel) (by decide +kernel) rfl

/-- Not every recursive inclusion is refused, and not every parse ends: here the file is closed
before it is included again, each time. -/
theorem not_refused_ending :
    (¬ ∀ (s : Scanner) (files : Library) (main : String) (body : List Statement),
      Laid s files main body →
      ∀ file other rest below, files.Reached main body ((file, .inclusion other :: rest) :: below) →
        other ∈ names ((file, rest) :: below) → ∃ name, Refuses s name) ∧
    ¬ ∀ (s : Scanner) (files : Library) (main : String) (body : List Statement),
      Laid s files main body → ∃ result, Results s result := by
  have hreached : endless.Reached "main" [.inclusion "f", .word "rest" (by decide)]
      [("f", [.inclusion "f"]), ("main", [.word "rest" (by decide)])] :=
    .tail .refl (.inclusion (by decide) (by decide) (by rfl))
  have hspent : Agenda.Spent [("f", []), ("main", [.word "rest" (by decide)])] "f" :=
    ⟨[], _, rfl, fun _ hentry => absurd hentry List.not_mem_nil, List.cons_ne_nil _ _⟩
  have hnever : ∀ result, ¬ Results endlessReader result :=
    laid_endless.not_results fun verdict => Library.not_comes_of_spent (by rfl) hreached hspent
  constructor
  · intro h
    obtain ⟨name, fault, hresult, -⟩ := h _ _ _ _ laid_endless _ _ _ _ hreached (by decide)
    exact hnever _ hresult
  · intro h
    obtain ⟨result, hresult⟩ := h _ _ _ _ laid_endless
    exact hnever _ hresult

end Inclusion

end GrammarEngine
