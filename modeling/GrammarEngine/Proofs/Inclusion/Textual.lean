import GrammarEngine.Proofs.Inclusion.Machine
import GrammarEngine.Scanner.Presets

/-!
# Inclusion by an action is textual inclusion

An inclusion is carried out by the action of its pattern, when the token behind it was already read
and pushed back. Still the statements of the included file come directly behind the inclusion,
wherever that stands: the token pushed back stays with the file that it came from.

The one exception is an inclusion at the very end of the main file. The token behind it is the end
of the whole input, and once that was reached it stays the answer. The file is opened, but its
statements are lost.

Main results:

* `Behind.concludes` — what a parse makes of the statements that are left.
* `parse_statements` — a parse of a main file returns its textual inclusion, up to a file
  included at the end.
* `not_textual_ending` — there the statements of the file are missing.
-/

namespace GrammarEngine

namespace Inclusion

variable {c : Scanner} {path : String} {files : Library} {p : Parser Source} {statement : Statement}
  {values : List Value} {more : List Statement}

-- ---------------------------------------------------------------------------
-- Between the tokens of a statement
-- ---------------------------------------------------------------------------

/-- The parser is behind a complete statement, with the statements before it collected and some
more to come. -/
inductive Behind (c : Scanner) (path : String) (files : Library) (p : Parser Source)
    (statement : Statement) (values : List Value) (more : List Statement) : Prop
  | intro {t : Scanner} {agenda : Agenda}
      (hstands : Stands p t [endedLevel statement, fileLevel values, rootLevel])
      (hreading : Scanner.Reading c path files t agenda) (hleft : agenda.left = more)
      (hleads : ∀ file, statement = .inclusion file → ∀ entry ∈ agenda, files.Leads entry.1 file)

/-- The parser is behind the first word of a statement. -/
inductive Begun (c : Scanner) (path : String) (files : Library) (p : Parser Source)
    (statement : Statement) (values : List Value) (more : List Statement) : Prop
  | intro {t : Scanner} {file : String} {rest : List Statement} {below : Agenda}
      (hstands : Stands p t [begunLevel statement, fileLevel values, rootLevel])
      (hlive : Scanner.Live c (Location.directory path) t
        ((file, statement.others ++ spelled rest) :: below.spelled))
      (hleft : rest ++ below.left = more)
      (horder : files.InOrder ((file, statement :: rest) :: below))
      (hplain : ∀ entry ∈ (file, rest) :: below, Location.Plain entry.1)

/-- A statement that was begun is read to its end. -/
theorem Begun.concludes (hshelf : Scanner.Shelf c path files)
    (h : Begun c path files p statement values more) {value : Value}
    (hbehind : ∀ p', Behind c path files p' statement values more →
      Parser.Concludes (site statement.ended) p' value) :
    Parser.Concludes (site statement.begun) p value := by
  cases h with
  | @intro t file rest below hstands hlive hleft horder hplain =>
    cases statement with
    | word text hword =>
      -- the first word is the whole statement
      have hreading : Scanner.Reading c path files t ((file, rest) :: below) :=
        ⟨hlive, horder.rest, hplain⟩
      refine hbehind p (.intro hstands hreading hleft fun other hother => ?_)
      cases hother
    | inclusion other =>
      obtain ⟨token, t', hdenotes, hnext, -, hlive'⟩ := Scanner.Live.next_word hshelf.quiet hlive
      have hreading : Scanner.Reading c path files t' ((file, rest) :: below) :=
        ⟨hlive', horder.rest, hplain⟩
      obtain ⟨p', hround, hstands'⟩ := hstands.round_name hnext hdenotes
      refine .of_round hround (hbehind p' (.intro hstands' hreading hleft fun other' hother' => ?_))
      cases hother'
      exact horder.leads

-- ---------------------------------------------------------------------------
-- From one statement to the next
-- ---------------------------------------------------------------------------

/-- The action of a statement, once the token behind it was pushed back: a file that is included
stands in front. -/
theorem acts_of_opens {t : Scanner} {agenda : Agenda} {token : Token} {body : List Statement}
    (hshelf : Scanner.Shelf c path files) (hreading : Scanner.Reading c path files t agenda)
    (hpending : t.pending = some token) (hopens : files.Opens statement body)
    (hleads : ∀ file, statement = .inclusion file → ∀ entry ∈ agenda, files.Leads entry.1 file) :
    ∃ t' agenda', Acts statement t t' ∧ Scanner.Reading c path files t' agenda' ∧
      agenda'.left = body ++ agenda.left := by
  cases hopens with
  | word => exact ⟨t, agenda, .word, hreading, rfl⟩
  | @inclusion file body hfile =>
    obtain ⟨t', hinclude, hreading'⟩ := hreading.include hshelf hpending hfile (hleads file rfl)
    exact ⟨t', (file, body) :: agenda, .inclusion hinclude, hreading', rfl⟩

/-- **From a statement to the next one.** The token behind it is read, and pushed back while its
action is called. Then the first statement of what the action has put in front is begun. -/
theorem Behind.next (hshelf : Scanner.Shelf c path files)
    (h : Behind c path files p statement values more) (hne : more ≠ []) {body : List Statement}
    (hopens : files.Opens statement body) :
    ∃ next rest p', body ++ more = next :: rest ∧
      Run.Yields (fun rounds =>
        Parser.round rounds (site statement.ended)) p (.inl (site next.begun)) p' ∧
      Begun c path files p' next (values ++ [statement.value]) rest := by
  cases h with
  | @intro t agenda hstands hreading hleft hleads =>
    obtain ⟨ahead, behind, rfl⟩ := List.exists_cons_of_ne_nil hne
    -- the token behind the statement
    obtain ⟨token, t₁, t₂, agenda₂, hahead, hdenotes, hback, hpending, hreading₂, hleft₂, hamong⟩ :=
      hreading.peek hshelf hleft
    obtain ⟨t₃, agenda₃, hacts, hreading₃, hleft₃⟩ := acts_of_opens hshelf hreading₂ hpending hopens
      fun file hfile => hamong.leads (hleads file hfile)
    -- the token that comes now
    rw [hleft₂, hleft] at hleft₃
    obtain ⟨next, rest, hnext⟩ : ∃ next rest, body ++ ahead :: behind = next :: rest :=
      List.exists_cons_of_ne_nil (List.append_ne_nil_of_right_ne_nil _ hne)
    obtain ⟨token', t₄, file, left, below, hnow, hdenotes', -, hlive, hrest, horder, hamong'⟩ :=
      hreading₃.next hshelf (hleft₃.trans hnext)
    obtain ⟨p', hround, hstands'⟩ := hstands.round_again hahead hdenotes hback hacts hnow hdenotes'
    exact ⟨next, rest, p', hnext, hround,
      .intro hstands' hlive hrest horder (hamong'.plain hreading₃.plain)⟩

/-- Behind the last statement the end of the whole input comes. What that statement
includes is not read. -/
theorem Behind.concludes_last (hshelf : Scanner.Shelf c path files)
    (h : Behind c path files p statement values [])
    (hfile : ∀ file, statement = .inclusion file → ∃ body, files.lookup file = some body) :
    Parser.Concludes (site statement.ended) p (.series (values ++ [statement.value])) := by
  cases h with
  | @intro t agenda hstands hreading hleft hleads =>
    obtain ⟨token, t₁, hnext, hdone, hpending, hinclude⟩ := hreading.next_end hshelf hleft
    obtain ⟨hback, hdone₂⟩ := hdone.pushBack hpending
    obtain ⟨t₃, hacts, hdone₃⟩ : ∃ t₃, Acts statement { t₁ with pending := some token } t₃ ∧
        Scanner.Done token t₃ := by
      cases statement with
      | word text hword => exact ⟨_, .word, hdone₂⟩
      | inclusion file =>
        obtain ⟨body, hbody⟩ := hfile file rfl
        obtain ⟨t₃, ht₃, hdone₃⟩ := hinclude file body hbody (hleads file rfl)
        exact ⟨t₃, .inclusion ht₃, hdone₃⟩
    exact hstands.concludes_ended hnext hdone.isEnd hback hacts hdone₃

/-- **The statements that are left**, behind one that is complete: what is read of them is what the
parse returns. -/
theorem Behind.concludes (hshelf : Scanner.Shelf c path files)
    {row : List Statement} {seen : List Value} (hreads : files.Reads row seen)
    (hclosed : ∀ file body, files.lookup file = some body → files.Closed body)
    (hrow : files.Closed row) (heq : row = statement :: more)
    (h : Behind c path files p statement values more) :
    Parser.Concludes (site statement.ended) p (.series (values ++ seen)) := by
  induction hreads generalizing p statement values more with
  | nil => cases heq
  | last =>
    obtain ⟨rfl, rfl⟩ := List.cons.inj heq
    exact h.concludes_last hshelf fun file hfile =>
      hrow file (by rw [hfile]; exact List.mem_cons_self ..)
  | @cons _ body behind seen hne hopens _ ih =>
    obtain ⟨hstatement, hbehind⟩ := List.cons.inj heq
    subst hstatement
    rw [← hbehind] at h
    obtain ⟨next, rest, p', hnext, hround, hbegun⟩ := h.next hshelf hne hopens
    have hrow' : files.Closed (body ++ behind) := by
      intro file hfile
      rcases List.mem_append.mp hfile with hfile | hfile
      · cases hopens with
        | word => cases hfile
        | inclusion hbody => exact hclosed _ _ hbody file hfile
      · exact hrow file (List.mem_cons_of_mem _ hfile)
    refine .of_round hround (hbegun.concludes hshelf fun p'' hbehind => ?_)
    have hconcludes := ih hrow' hnext hbehind
    rw [List.append_assoc] at hconcludes
    exact hconcludes

-- ---------------------------------------------------------------------------
-- The whole parse
-- ---------------------------------------------------------------------------

/-- From the beginning of the main file on, the parse returns what is read of its statements. -/
theorem Stands.concludes {t : Scanner} {agenda : Agenda} {row : List Statement} {seen : List Value}
    (hshelf : Scanner.Shelf c path files) (h : Stands p t [rootLevel])
    (hreading : Scanner.Reading c path files t agenda) (hleft : agenda.left = row)
    (hreads : files.Reads row seen)
    (hclosed : ∀ file body, files.lookup file = some body → files.Closed body)
    (hrow : files.Closed row) : Parser.Concludes (site fileEntry) p (.series seen) := by
  cases row with
  | nil =>
    cases hreads
    obtain ⟨token, t', hnext, hdone, -, -⟩ := hreading.next_end hshelf hleft
    exact h.concludes_empty hnext hdone
  | cons statement more =>
    obtain ⟨token, t', file, rest, below, hnext, hdenotes, -, hlive, hrest, horder, hamong⟩ :=
      hreading.next hshelf hleft
    obtain ⟨p', hround, hstands⟩ := h.round_start hnext hdenotes
    have hbegun : Begun c path files p' statement [] more :=
      .intro hstands hlive hrest horder (hamong.plain hreading.plain)
    refine .of_round hround (hbegun.concludes hshelf fun p'' hbehind => ?_)
    exact hbehind.concludes hshelf hreads hclosed hrow rfl

theorem prepare_declared :
    ∃ r, (Parser.prepare "file").Returns declared r tabled ∧ r.id = fileId := by
  obtain ⟨r, hfind, hid⟩ : ∃ r, declared.grammar.find? "file" = some r ∧ r.id = fileId :=
    ⟨_, rfl, rfl⟩
  refine ⟨r, Run.returns_bind.mpr ⟨declared, declared, Run.returns_get.mpr ⟨rfl, rfl⟩, ?_⟩, hid⟩
  rw [hfind]
  show (Parser.updateTable >>= fun _ => pure r).Returns declared r tabled
  exact Run.returns_bind.mpr ⟨(), tabled, updateTable_declared, Run.returns_pure.mpr ⟨rfl, rfl⟩⟩

/-- The entry of the start rule, in the table of the grammar. -/
theorem find?_start {r : Rule (Action Source)} (hid : r.id = fileId) :
    tabled.table.find? ⟨r.id, none, 0⟩ = some fileEntry := by
  rw [hid, table_tabled]
  rfl

/-- A parser that has just been set to the start of a file. -/
def started (t : Scanner) : Parser Source :=
  { tabled with
    source := some (.inr t)
    stack := some [{ site := ⟨tabled.table, fileEntry⟩, action := none }] }

theorem site_start : site fileEntry = ⟨tabled.table, fileEntry⟩ := by
  rw [table_tabled]
  rfl

theorem stands_started (t : Scanner) : Stands (started t) t [rootLevel] := by
  obtain ⟨hgrammar, hformer, htable, hkinds, hblocked⟩ := prepared_tabled
  exact ⟨⟨hgrammar, hformer, htable, hkinds, hblocked⟩, rfl, _, rfl,
    .cons ⟨site_start.symm, rfl, rfl⟩ .nil⟩

/-- A main file that a scanner reads, and the files beside it. Read alone, each of them consists
of whole statements. All files that are included are there, and none includes itself, not by
others either. -/
structure Filed (s : Scanner) (files : Library) (main : String) (body : List Statement) : Prop where
  quiet : Scanner.Quiet s.lexicon s.defaultMode
  plain : ∀ file body, files.lookup file = some body → Location.Plain file
  consists : ∀ file body, files.lookup file = some body →
    Scanner.Consists s (Location.inside (Location.directory s.master) file) (spelled body)
  closed : ∀ file body, files.lookup file = some body → files.Closed body
  acyclic : ∀ file, ¬ files.Leads file file
  found : files.lookup main = some body
  master : Scanner.Consists s s.master (spelled body)
  place : Location.ofName s.master =
    Location.ofName (Location.inside (Location.directory s.master) main)

/-- A scanner is opened on its main file, and the parse of its tokens returns a value, if it may
take enough rounds. -/
def Parses (s : Scanner) (value : Value) : Prop :=
  ∃ t, (Scanner.start false).Returns s () t ∧ ∃ n, ∀ rounds, n ≤ rounds → ∃ p',
    (declare >>= fun _ => Parser.parse rounds "file" (.inr t)).Returns blank value p'

/-- There is one value at most. -/
theorem Parses.unique {s : Scanner} {value value' : Value}
    (h : Parses s value) (h' : Parses s value') : value = value' := by
  obtain ⟨t, hstart, n, hn⟩ := h
  obtain ⟨t', hstart', m, hm⟩ := h'
  obtain ⟨-, rfl⟩ := hstart.unique hstart'
  obtain ⟨p, hp⟩ := hn (max n m) (Nat.le_max_left ..)
  obtain ⟨p', hp'⟩ := hm (max n m) (Nat.le_max_right ..)
  exact (hp.unique hp').1

section Filed

variable {s : Scanner} {main : String} {body : List Statement}

/-- A parse returns what is read of the main file. -/
theorem Filed.parses (h : Filed s files main body) {seen : List Value}
    (hreads : files.Reads body seen) : Parses s (.series seen) := by
  obtain ⟨stream, hstart, hlive⟩ := h.master.live h.quiet h.place
  -- what is open in the beginning
  have hshelf : Scanner.Shelf (s.opened stream) s.master files :=
    ⟨h.quiet, rfl, h.plain,
      fun file body hfile => (h.consists file body hfile).stores h.quiet stream, h.acyclic⟩
  have hreading : Scanner.Reading (s.opened stream) s.master files (s.opened stream)
      [(main, body)] := by
    refine ⟨hlive, ⟨fun entry hentry other hother => ?_, List.pairwise_singleton ..⟩,
      fun entry hentry => ?_⟩
    · obtain rfl := List.mem_singleton.mp hentry
      exact ⟨body, h.found, hother⟩
    · obtain rfl := List.mem_singleton.mp hentry
      exact h.plain main body h.found
  -- and where the parse begins
  obtain ⟨r, hprepare, hid⟩ := prepare_declared
  have hconcludes := (stands_started _).concludes hshelf hreading (List.append_nil body) hreads
    h.closed (h.closed main body h.found)
  rw [site_start] at hconcludes
  obtain ⟨n, hn⟩ := Parser.parse_of_concludes hprepare (find?_start hid) hconcludes
  refine ⟨s.opened stream, hstart, n, fun rounds hrounds => ?_⟩
  obtain ⟨p', hparse⟩ := hn rounds hrounds
  exact ⟨p', Run.returns_bind.mpr ⟨(), declared, declare_returns, hparse⟩⟩

/--
**Inclusion by an action** is textual inclusion, wherever the inclusion stands, with one exception:
the values of a file that the last statement of the main file includes are not there. All others
are, each once and in order. So the parse returns the textual inclusion exactly if the main file
does not end in the inclusion of a file that has statements.
-/
theorem parse_statements (h : Filed s files main body) :
    ∃ seen lost, files.Expands body (seen ++ lost) ∧ files.Overlooked body lost ∧
      Parses s (.series seen) ∧ (Parses s (.series (seen ++ lost)) ↔
        ∀ file, body.getLast? = some (.inclusion file) → files.lookup file = some []) := by
  obtain ⟨values, hexpands⟩ :=
    Library.expands_of_acyclic h.acyclic h.closed (h.closed main body h.found)
  obtain ⟨seen, lost, rfl, hlost, hreads⟩ := hexpands.reads
  have hparses := h.parses hreads
  refine ⟨seen, lost, hexpands, hlost, hparses, ?_⟩
  rw [← hlost.eq_nil_iff]
  constructor
  · intro hall
    have hsame := Value.series.inj (hparses.unique hall)
    exact List.append_right_eq_self.mp hsame.symm
  · rintro rfl
    rw [List.append_nil]
    exact hparses

end Filed

-- ---------------------------------------------------------------------------
-- Files that are read
-- ---------------------------------------------------------------------------

/-- Blanks and comments, numbers, words and signs. -/
def basicLexicon : Lexicon := (Lexicon.ofEntries? none Entry.basic).getD []

theorem quiet_basicLexicon : Scanner.Quiet basicLexicon none := by
  obtain ⟨blanks, comment, digits, letters, signs, hpatterns⟩ :
      ∃ blanks comment digits letters signs,
      (basicLexicon.patterns? none).getD [] = [⟨none, blanks, none⟩, ⟨none, comment, none⟩,
        ⟨some "INTEGER", digits, some (Post.routine (some "INTEGER") [.toNumber])⟩,
        ⟨some "ID", letters, none⟩,
        ⟨some "LITERAL", signs, none⟩] := ⟨_, _, _, _, _, by rfl⟩
  intro p hp routine hroutine m
  rw [hpatterns] at hp
  have hnumber : p.routine = some (Post.routine (some "INTEGER") [.toNumber]) ∨
      p.routine = none := by
    simp only [List.mem_cons, List.not_mem_nil, or_false] at hp
    rcases hp with rfl | rfl | rfl | rfl | rfl <;> simp
  rcases hnumber with hnumber | hnone
  · rw [hnumber, Option.some.injEq] at hroutine
    rw [← hroutine]
    cases hnumeral : Text.Numeral.toInt? m.text with
    | some n =>
      exact .inl ⟨some "INTEGER", .number n, by simp [Post.routine, Post.perform, hnumeral]⟩
    | none => exact .inr ⟨.badNumeral, by simp [Post.routine, Post.perform, hnumeral]⟩
  · rw [hnone] at hroutine
    cases hroutine

/-- A scanner of files in the working directory. -/
def reader (texts : List (String × String)) : Scanner where
  master := "main"
  lexicon := basicLexicon
  defaultMode := none
  mode := none
  disk := ⟨texts.map fun (name, text) => (Location.ofName name, .text text)⟩

/-- The files lie in the working directory. -/
theorem beside_reader (texts : List (String × String)) (file : String) :
    Location.inside (Location.directory (reader texts).master) file = file := by
  have hworking : Location.directory (reader texts).master = "" := by
    show Location.directory "main" = ""
    decide +kernel
  rw [hworking]
  rfl

/-- The place of a file that is opened on its own. -/
def openedOn (texts : List (String × String)) (file : String) : Outcome Scanner Unit :=
  (Scanner.start false).run { reader texts with master := file }

/-- Of which statements a file consists can be found out by running the scanner on it. -/
theorem consists_reader {texts : List (String × String)} {files : Library}
    (hread : ∀ entry ∈ files, (openedOn texts entry.1).result.toOption = some () ∧
      Scanner.delivered? 30 9 (openedOn texts entry.1).state = some (spelled entry.2)) :
    ∀ file body, files.lookup file = some body →
      Scanner.Consists (reader texts) file (spelled body) :=
  Library.forall_lookup fun entry hentry => ⟨_, Run.returns_of_result (hread entry hentry).1,
    Scanner.delivers_of_delivered? (hread entry hentry).2⟩

/-- The files that statements include. -/
def inclusions (statements : List Statement) : List String :=
  statements.filterMap fun
    | .inclusion file => some file
    | .word _ _ => none

theorem mem_inclusions {statements : List Statement} {file : String}
    (h : .inclusion file ∈ statements) :
    file ∈ inclusions statements := List.mem_filterMap.mpr ⟨_, h, rfl⟩

/-- Names of files that are no paths. -/
theorem plain_of_entries
    (h : ∀ entry ∈ files, entry.1 ≠ "" ∧ entry.1 ≠ "." ∧ entry.1 ≠ ".." ∧ '/' ∉ entry.1.toList) :
    ∀ file body, files.lookup file = some body → Location.Plain file := by
  refine Library.forall_lookup fun entry hentry => ?_
  obtain ⟨hempty, hdot, hdots, hslash⟩ := h entry hentry
  exact ⟨hempty, hdot, hdots, hslash⟩

/-- A scanner of files that have a rank, which is lower for a file that another one includes. -/
private theorem filed_reader {texts : List (String × String)} {files : Library}
    {body : List Statement} (rank : String → Nat)
    (hplain : ∀ entry ∈ files, entry.1 ≠ "" ∧ entry.1 ≠ "." ∧ entry.1 ≠ ".." ∧ '/' ∉ entry.1.toList)
    (hread : ∀ entry ∈ files, (openedOn texts entry.1).result.toOption = some () ∧
      Scanner.delivered? 30 9 (openedOn texts entry.1).state = some (spelled entry.2))
    (hinclusions : ∀ entry ∈ files, ∀ other ∈ inclusions entry.2,
      (files.lookup other).isSome = true ∧ rank other < rank entry.1)
    (hmain : files.lookup "main" = some body) : Filed (reader texts) files "main" body := by
  have hincluded : ∀ file body, files.lookup file = some body → ∀ other, .inclusion other ∈ body →
      (files.lookup other).isSome = true ∧ rank other < rank file :=
    Library.forall_lookup fun entry hentry other hother =>
      hinclusions entry hentry other (mem_inclusions hother)
  refine ⟨quiet_basicLexicon, plain_of_entries hplain, fun file body hfile => ?_, ?_, ?_, hmain,
    consists_reader hread "main" body hmain, ?_⟩
  · rw [beside_reader]
    exact consists_reader hread file body hfile
  · exact fun file body hfile other hother =>
      Option.isSome_iff_exists.mp (hincluded file body hfile other hother).1
  · exact Library.acyclic_of_rank rank fun file body hfile other hother =>
      (hincluded file body hfile other hother).2
  · rw [beside_reader]
    rfl

/-- An inclusion that comes first, and one that comes last in an included file. -/
private def nested : Library :=
  [("main", [.inclusion "a", .word "after" (by decide)]),
    ("a", [.word "inside" (by decide), .inclusion "b"]),
    ("b", [.word "deep" (by decide)])]

/-- The main file includes a file that ends with the inclusion of another one. -/
private def nestedReader : Scanner :=
  reader [("main", "include a after\n"), ("a", "inside include b"), ("b", "deep\n")]

private theorem filed_nested :
    Filed nestedReader nested "main" [.inclusion "a", .word "after" (by decide)] :=
  filed_reader (fun file => if file = "main" then 2 else if file = "a" then 1 else 0)
    (by decide +kernel) (by decide +kernel) (by decide +kernel) rfl

theorem parse_statements_nested :
    Filed nestedReader nested "main" [.inclusion "a", .word "after" (by decide)] ∧
    Parses nestedReader (.series [.list [.text "included", .text "a"], .text "inside",
      .list [.text "included", .text "b"], .text "deep", .text "after"]) := by
  obtain ⟨seen, lost, hexpands, -, -, hall⟩ := parse_statements filed_nested
  have hvalues := hexpands.unique
    (.inclusion (by rfl) (.word (.inclusion (by rfl) (.word .nil) .nil)) (.word .nil))
  rw [hvalues] at hall
  refine ⟨filed_nested, hall.mpr fun file hfile => ?_⟩
  cases hfile

/-- An inclusion that comes last in the main file. -/
private def ending : Library := [("main", [.inclusion "a"]), ("a", [.word "x" (by decide)])]

/-- The main file ends with an inclusion. -/
private def endingReader : Scanner := reader [("main", "include a\n"), ("a", "x\n")]

private theorem filed_ending : Filed endingReader ending "main" [.inclusion "a"] :=
  filed_reader (fun file => if file = "main" then 1 else 0) (by decide +kernel) (by decide +kernel)
    (by decide +kernel) rfl

/-- Not every parse returns the textual inclusion: here the file that the main file ends
with is not read. -/
theorem not_textual_ending :
    ¬ ∀ (s : Scanner) (files : Library) (main : String) (body : List Statement)
    (values : List Value), Filed s files main body → files.Expands body values →
        Parses s (.series values) := by
  intro h
  have hclaimed := h _ _ _ _ _ filed_ending (.inclusion (by rfl) (.word .nil) .nil)
  have hread := filed_ending.parses .last
  exact absurd (hread.unique hclaimed) (by decide +kernel)

end Inclusion

end GrammarEngine
