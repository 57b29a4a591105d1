import GrammarEngine.Proofs.Inclusion.Statements
import GrammarEngine.Proofs.Scanner.Inputs

/-!
# Statements from open files

While files of statements are read, each open file has a row of statements that is still to come
(`Agenda`). Taken together, the current file first, these are the statements that are left.

A file that is included must not be open. Where there is no inclusion cycle, it is not: every open
file leads to all that the files above it include (`InOrder`).

Main results:

* `Reading.next` — the first word of the statements that are left comes next.
* `Reading.peek` — it may be looked at and pushed back.
* `Reading.include` — including a file puts its statements in front of those that are left.
-/

namespace GrammarEngine

/-- The open files with their statements still to come, the current file first. -/
abbrev Agenda := List (String × List Statement)

namespace Agenda

/-- The statements that are left. -/
def left (agenda : Agenda) : List Statement := agenda.flatMap Prod.snd

/-- The words that are left in each file. -/
def spelled (agenda : Agenda) : List (String × List String) :=
  agenda.map (Prod.map id GrammarEngine.spelled)

/-- The names of the files. -/
def names (agenda : Agenda) : List String := agenda.map Prod.fst

/-- The files that are still open when the next token was read: those that were read to their end
are closed. The last one is not. -/
def trimmed : Agenda → Agenda
  | (_, []) :: entry :: below => trimmed (entry :: below)
  | agenda => agenda

@[simp] theorem left_cons (file : String) (statements : List Statement) (below : Agenda) :
    left ((file, statements) :: below) = statements ++ left below := rfl

theorem map_spelled (agenda : Agenda) : agenda.spelled.map Prod.fst = agenda.names := by
  unfold spelled names
  rw [List.map_map]
  rfl

@[simp] theorem names_cons (file : String) (statements : List Statement) (below : Agenda) :
    names ((file, statements) :: below) = file :: names below := rfl

theorem mem_names_of_mem {agenda : Agenda} {entry : String × List Statement} (h : entry ∈ agenda) :
    entry.1 ∈ agenda.names := List.mem_map_of_mem h

@[simp] theorem trimmed_cons_cons (file : String) (statement : Statement) (rest : List Statement)
    (below : Agenda) :
    trimmed ((file, statement :: rest) :: below) = (file, statement :: rest) :: below := by
  unfold trimmed
  rfl

@[simp] theorem trimmed_nil_cons (file : String) (entry : String × List Statement)
    (below : Agenda) : trimmed ((file, []) :: entry :: below) = trimmed (entry :: below) := by
  rw [trimmed]

/-- Only files in front are closed. -/
theorem trimmed_suffix (agenda : Agenda) : agenda.trimmed <:+ agenda := by
  fun_induction trimmed agenda with
  | case1 file entry below ih => exact ih.trans (List.suffix_cons ..)
  | case2 agenda => exact List.suffix_rfl

/-- No statement is lost. -/
theorem left_trimmed (agenda : Agenda) : agenda.trimmed.left = agenda.left := by
  fun_induction trimmed agenda with
  | case1 file entry below ih => exact ih
  | case2 agenda => rfl

theorem trimmed_trimmed (agenda : Agenda) : agenda.trimmed.trimmed = agenda.trimmed := by
  fun_induction trimmed agenda with
  | case1 file entry below ih => exact ih
  | case2 agenda hlast =>
    unfold trimmed
    split
    · next file entry below => exact absurd rfl (hlast file entry below)
    · rfl

/-- If statements are left, the first open file goes on. -/
theorem exists_trimmed {agenda : Agenda} (h : agenda.left ≠ []) :
    ∃ file statement rest below, agenda.trimmed = (file, statement :: rest) :: below := by
  fun_induction trimmed agenda with
  | case1 file entry below ih => exact ih h
  | case2 agenda hlast =>
    match agenda with
    | [] => exact absurd rfl h
    | (file, statement :: rest) :: below => exact ⟨file, statement, rest, below, rfl⟩
    | [(file, [])] => exact absurd rfl h
    | (file, []) :: entry :: below => exact absurd rfl (hlast file entry below)

end Agenda

namespace Library

/-- A file leads to another one by inclusions. -/
abbrev Leads (files : Library) : String → String → Prop := Relation.TransGen (Includes files)

variable {files : Library} {file other : String} {statements body : List Statement}
  {below agenda : Agenda}

/-- Open files in order: what is still to come of a file stands in it, and each file was reached
from those below. -/
structure InOrder (files : Library) (agenda : Agenda) : Prop where
  includes : ∀ entry ∈ agenda, ∀ other, .inclusion other ∈ entry.2 → Includes files entry.1 other
  nested : agenda.Pairwise fun upper lower => Leads files lower.1 upper.1

/-- Files in front may be closed. -/
theorem InOrder.of_suffix (h : InOrder files agenda) (hsuffix : below <:+ agenda) :
    InOrder files below :=
  ⟨fun e he => h.includes e (hsuffix.subset he), h.nested.sublist hsuffix.sublist⟩

/-- Statements may be taken away. -/
theorem InOrder.rest {statement : Statement}
    (h : InOrder files ((file, statement :: statements) :: below)) :
    InOrder files ((file, statements) :: below) := by
  obtain ⟨hincludes, hnested⟩ := h
  refine ⟨fun e he other hother => ?_, ?_⟩
  · rcases List.mem_cons.mp he with rfl | he
    · exact hincludes _ (List.mem_cons_self ..) other (List.mem_cons_of_mem _ hother)
    · exact hincludes e (List.mem_cons_of_mem _ he) other hother
  · rw [List.pairwise_cons] at hnested ⊢
    exact hnested

/-- All open files lead to what the current one includes. -/
theorem InOrder.leads (h : InOrder files ((file, .inclusion other :: statements) :: below)) :
    ∀ entry ∈ (file, statements) :: below, Leads files entry.1 other := by
  have hlast : Includes files file other :=
    h.includes _ (List.mem_cons_self ..) other (List.mem_cons_self ..)
  intro entry hentry
  rcases List.mem_cons.mp hentry with rfl | hentry
  · exact .single hlast
  · exact ((List.pairwise_cons.mp h.nested).1 entry hentry).tail hlast

/-- A file that all open files lead to may be opened on top. -/
theorem InOrder.cons (h : InOrder files agenda) (hbody : files.lookup other = some body)
    (hleads : ∀ entry ∈ agenda, Leads files entry.1 other) :
    InOrder files ((other, body) :: agenda) := by
  refine ⟨fun e he m hm => ?_, List.pairwise_cons.mpr ⟨hleads, h.nested⟩⟩
  rcases List.mem_cons.mp he with rfl | he
  · exact ⟨body, hbody, hm⟩
  · exact h.includes e he m hm

end Library

namespace Scanner

variable {c t : Scanner} {path : String} {files : Library} {agenda : Agenda}

/-- What is assumed of the files of a directory. -/
structure Shelf (c : Scanner) (path : String) (files : Library) : Prop where
  quiet : Quiet c.lexicon c.mode
  mode : c.mode = c.defaultMode
  plain : ∀ file body, files.lookup file = some body → Location.Plain file
  stores : ∀ file body, files.lookup file = some body →
    Stores c (Location.directory path) file (spelled body)
  acyclic : ∀ file, ¬ files.Leads file file

/-- A scanner that reads the statements of files. -/
structure Reading (c : Scanner) (path : String) (files : Library) (t : Scanner)
    (agenda : Agenda) : Prop where
  live : Live c (Location.directory path) t agenda.spelled
  order : files.InOrder agenda
  plain : ∀ entry ∈ agenda, Location.Plain entry.1

/-- The file of an entry of a list of open files is one of another list. -/
def Among (agenda agenda' : Agenda) : Prop :=
  ∀ entry ∈ agenda, ∃ entry' ∈ agenda', entry.1 = entry'.1

/-- A file below the current one has words left. -/
theorem Live.below_ne_nil {dir file file' : String} {words words' : List String}
    {rest : List (String × List String)}
    (h : Live c dir t ((file, words) :: (file', words') :: rest)) : words' ≠ [] := by
  obtain ⟨_, _, -, -, hbelow⟩ := h.head
  cases hbelow with
  | cons hsaved hholds hrest =>
    obtain ⟨more, -, hnone | ⟨token, w, -, -, rfl⟩⟩ := hholds.words
    · cases hnone.1
    · exact List.cons_ne_nil _ _

/-- Where no statements are left, only the main file is open. -/
theorem Live.last_of_left {dir file : String} {rest : List Statement} {below : Agenda}
    (h : Live c dir t (Agenda.spelled ((file, rest) :: below)))
    (hleft : Agenda.left ((file, rest) :: below) = []) : rest = [] ∧ below = [] := by
  rw [Agenda.left_cons, List.append_eq_nil_iff] at hleft
  refine ⟨hleft.1, ?_⟩
  cases below with
  | nil => rfl
  | cons entry below =>
    obtain ⟨file', statements⟩ := entry
    obtain ⟨rfl, -⟩ := List.append_eq_nil_iff.mp hleft.2
    exact absurd rfl h.below_ne_nil

/-- **The next word** is the first one of the file that goes on. -/
theorem Live.next_first {dir : String} (hquiet : Quiet c.lexicon c.mode)
    (hmode : c.mode = c.defaultMode) (h : Live c dir t agenda.spelled)
    {file : String} {statement : Statement} {rest : List Statement} {below : Agenda}
    (hfirst : agenda.trimmed = (file, statement :: rest) :: below) :
    ∃ token t', Run.Yields Scanner.next t token t' ∧ Denotes token statement.first ∧ t'.pending =
      none ∧ Live c dir t' ((file, statement.others ++ spelled rest) :: below.spelled) := by
  match agenda with
  | [] => cases hfirst
  | (file', first :: others) :: below' =>
    -- the current file goes on
    rw [Agenda.trimmed_cons_cons] at hfirst
    cases hfirst
    obtain ⟨token, t', hdenotes, hyields, hpending, hlive⟩ := Live.next_word hquiet h
    exact ⟨token, t', hyields, hdenotes, hpending, hlive⟩
  | [(file', [])] => cases hfirst
  | (file', []) :: (file'', []) :: below' => exact absurd rfl h.below_ne_nil
  | (file', []) :: (file'', first :: others) :: below' =>
    -- the file that had included it goes on
    rw [Agenda.trimmed_nil_cons, Agenda.trimmed_cons_cons] at hfirst
    cases hfirst
    obtain ⟨token, t', hdenotes, hyields, hpending, hlive⟩ := Live.next_below hquiet hmode h
    exact ⟨token, t', hyields, hdenotes, hpending, hlive⟩

/-- The next word may be looked at: pushed back it is in front again. What was read to its
end is closed. -/
theorem Live.peek {dir : String} (hquiet : Quiet c.lexicon c.mode) (hmode : c.mode = c.defaultMode)
    (h : Live c dir t agenda.spelled) (hne : agenda.left ≠ []) :
    ∃ (token : Token) (ahead : Statement) (t₁ t₂ : Scanner), Run.Yields Scanner.next t token t₁ ∧
      Denotes token ahead.first ∧ (Scanner.pushBack token).Returns t₁ () t₂ ∧
      t₂.pending = some token ∧ Live c dir t₂ agenda.trimmed.spelled := by
  obtain ⟨file, statement, rest, below, hfirst⟩ := Agenda.exists_trimmed hne
  obtain ⟨token, t₁, hyields, hdenotes, hpending, hlive⟩ := h.next_first hquiet hmode hfirst
  obtain ⟨t₂, hpush, hpending', hlive'⟩ := hlive.pushBack hpending hdenotes
  rw [hfirst]
  exact ⟨token, statement, t₁, t₂, hyields, hdenotes, hpush, hpending', hlive'⟩

theorem among_of_suffix {file : String} {rest rest' : List Statement} {below : Agenda}
    (h : (file, rest') :: below <:+ agenda) : Among ((file, rest) :: below) agenda := by
  intro entry hentry
  rcases List.mem_cons.mp hentry with rfl | hentry
  · exact ⟨(file, rest'), h.subset (List.mem_cons_self ..), rfl⟩
  · exact ⟨entry, h.subset (List.mem_cons_of_mem _ hentry), rfl⟩

/-- The next word is the first one of the statements that are left. -/
theorem Reading.next (hshelf : Shelf c path files) (h : Reading c path files t agenda)
    {statement : Statement} {more : List Statement} (hleft : agenda.left = statement :: more) :
    ∃ (token : Token) (t' : Scanner) (file : String) (rest : List Statement) (below : Agenda),
      Run.Yields Scanner.next t token t' ∧ Denotes token statement.first ∧ t'.pending = none ∧
      Live c (Location.directory path) t' ((file, statement.others ++ spelled rest) ::
        below.spelled) ∧
      rest ++ below.left = more ∧ files.InOrder ((file, statement :: rest) :: below) ∧
      Among ((file, rest) :: below) agenda := by
  have hne : agenda.left ≠ [] := hleft ▸ List.cons_ne_nil _ _
  obtain ⟨file, first, rest, below, hfirst⟩ := Agenda.exists_trimmed hne
  have hrow : first :: (rest ++ Agenda.left below) = statement :: more := by
    rw [← hleft, ← agenda.left_trimmed, hfirst]
    rfl
  obtain ⟨rfl, rfl⟩ := List.cons.inj hrow
  have hsuffix : (file, first :: rest) :: below <:+ agenda := hfirst ▸ agenda.trimmed_suffix
  obtain ⟨token, t', hyields, hdenotes, hpending, hlive⟩ :=
    h.live.next_first hshelf.quiet hshelf.mode hfirst
  exact ⟨token, t', file, rest, below, hyields, hdenotes, hpending, hlive, rfl,
    h.order.of_suffix hsuffix, among_of_suffix hsuffix⟩

theorem Among.plain {agenda' : Agenda} (h : Among agenda' agenda)
    (hplain : ∀ entry ∈ agenda, Location.Plain entry.1) :
    ∀ entry ∈ agenda', Location.Plain entry.1 := by
  intro entry hentry
  obtain ⟨entry', hentry', heq⟩ := h entry hentry
  rw [heq]
  exact hplain entry' hentry'

theorem Among.leads {agenda' : Agenda} {file : String} (h : Among agenda' agenda)
    (hleads : ∀ entry ∈ agenda, files.Leads entry.1 file) :
    ∀ entry ∈ agenda', files.Leads entry.1 file := by
  intro entry hentry
  obtain ⟨entry', hentry', heq⟩ := h entry hentry
  rw [heq]
  exact hleads entry' hentry'

/-- The next word may be looked at: pushed back it is in front again. What was read to its
end is closed. -/
theorem Reading.peek (hshelf : Shelf c path files) (h : Reading c path files t agenda)
    {statement : Statement} {more : List Statement} (hleft : agenda.left = statement :: more) :
    ∃ (token : Token) (t₁ t₂ : Scanner) (agenda' : Agenda), Run.Yields Scanner.next t token t₁ ∧
      Denotes token statement.first ∧ (pushBack token).Returns t₁ () t₂ ∧ t₂.pending = some token ∧
      Reading c path files t₂ agenda' ∧ agenda'.left = agenda.left ∧ Among agenda' agenda := by
  obtain ⟨token, t₁, file, rest, below, hyields, hdenotes, hpending, hlive, rfl, horder, hamong⟩ :=
    h.next hshelf hleft
  obtain ⟨t₂, hpush, hpending', hlive'⟩ := hlive.pushBack hpending hdenotes
  have hamong' : Among ((file, statement :: rest) :: below) agenda := by
    intro entry hentry
    rcases List.mem_cons.mp hentry with rfl | hentry
    · exact hamong (file, rest) (List.mem_cons_self ..)
    · exact hamong entry (List.mem_cons_of_mem _ hentry)
  exact ⟨token, t₁, t₂, (file, statement :: rest) :: below, hyields, hdenotes, hpush, hpending',
    ⟨hlive', horder, hamong'.plain h.plain⟩, hleft.symm, hamong'⟩

/-- **An inclusion** puts the statements of the file in front of those that are left. -/
theorem Reading.include (hshelf : Shelf c path files) (h : Reading c path files t agenda)
    {token : Token} (hpending : t.pending = some token) {file : String} {body : List Statement}
    (hfile : files.lookup file = some body) (hleads : ∀ entry ∈ agenda, files.Leads entry.1 file) :
    ∃ t',
      (includeFile file none .idle).Returns t (Location.inside (Location.directory path) file) t' ∧
      Reading c path files t' ((file, body) :: agenda) := by
  have hopen : ∀ entry ∈ agenda.spelled, Location.Plain entry.1 ∧ entry.1 ≠ file := by
    intro entry hentry
    obtain ⟨entry', hentry', rfl⟩ := List.mem_map.mp hentry
    refine ⟨h.plain entry' hentry', ?_⟩
    rintro rfl
    exact hshelf.acyclic _ (hleads entry' hentry')
  obtain ⟨t', hinclude, -, hlive⟩ :=
    h.live.includeFile hpending (hshelf.plain file body hfile) hopen (hshelf.stores file body hfile)
  refine ⟨t', hinclude, hlive, h.order.cons hfile hleads, fun entry hentry => ?_⟩
  rcases List.mem_cons.mp hentry with rfl | hentry
  · exact hshelf.plain file body hfile
  · exact h.plain entry hentry

/-- Once no statements are left, the end of the whole input comes. A file that is included then is
opened, and not read. -/
theorem Reading.next_end (hshelf : Shelf c path files) (h : Reading c path files t agenda)
    (hleft : agenda.left = []) :
    ∃ token t', Run.Yields Scanner.next t token t' ∧ Done token t' ∧ t'.pending = none ∧
      ∀ file body, files.lookup file = some body → (∀ entry ∈ agenda, files.Leads entry.1 file) →
        ∃ t'', (includeFile file none .idle).Returns { t' with pending := some token }
          (Location.inside (Location.directory path) file) t'' ∧ Done token t'' := by
  have hlive := h.live
  cases agenda with
  | nil =>
    obtain ⟨-, -, -, _, _, _, _, _, -, heq, -, -⟩ := hlive
    cases heq
  | cons entry below =>
    obtain ⟨main, statements⟩ := entry
    obtain ⟨rfl, rfl⟩ := hlive.last_of_left hleft
    obtain ⟨token, t', hyields, hover, hdisk⟩ := hlive.next_end hshelf.quiet hshelf.mode
    refine ⟨token, t', hyields, hover.done, hover.pending, fun file body hfile hleads => ?_⟩
    have hmain : Location.Plain main ∧ main ≠ file := by
      refine ⟨h.plain _ (List.mem_cons_self ..), ?_⟩
      rintro rfl
      exact hshelf.acyclic _ (hleads _ (List.mem_cons_self ..))
    exact hover.includeFile (hshelf.plain file body hfile) hmain hdisk
      (hshelf.stores file body hfile)

end Scanner

end GrammarEngine
