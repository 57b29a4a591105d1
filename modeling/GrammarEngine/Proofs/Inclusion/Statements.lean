import Mathlib.Data.Fintype.EquivFin
import Mathlib.Data.Fintype.Sets
import Mathlib.Logic.Relation
import GrammarEngine.Value

/-!
# Files of statements

A file of statements is a row of words and of inclusions of other files. Textual inclusion puts the
values of the statements of a file directly behind the statement that includes it (`Expands`).

A reader that takes statements one by one works on a flat row: an inclusion puts the statements of a
file in front of those that are left (`Reads`). It comes to the same values, with one exception: an
inclusion that is the last statement of all is read without the file (`Overlooked`).

Main results:

* `expands_of_acyclic` — files without an inclusion cycle have an expansion.
* `Expands.reads` — what is read of it.
-/

namespace GrammarEngine

/-- A statement: the inclusion of a file, or a word that does not begin one. -/
inductive Statement where
  | inclusion (file : String)
  | word (text : String) (h : text ≠ "include")
deriving DecidableEq

namespace Statement

/-- The word that a statement begins with. -/
def first : Statement → String
  | .inclusion _ => "include"
  | .word text _ => text

/-- The words behind the first one. -/
def others : Statement → List String
  | .inclusion file => [file]
  | .word _ _ => []

/-- The words that a statement is written with. -/
def words (statement : Statement) : List String := statement.first :: statement.others

/-- The value of a statement by itself. -/
def value : Statement → Value
  | .inclusion file => .list [.text "included", .text file]
  | .word text _ => .text text

end Statement

/-- The words that statements are written with. -/
def spelled (statements : List Statement) : List String := statements.flatMap Statement.words

/-- Files with their statements. -/
abbrev Library := List (String × List Statement)

namespace Library

variable {files : Library} {statements rest : List Statement} {values : List Value}

/-- A file holds an inclusion of another one. -/
def Includes (files : Library) (file other : String) : Prop :=
  ∃ statements, files.lookup file = some statements ∧ .inclusion other ∈ statements

/-- **Textual inclusion**: the values of statements, those of an included file directly behind
its inclusion. -/
inductive Expands (files : Library) : List Statement → List Value → Prop
  | nil : Expands files [] []
  | word {text : String} {h : text ≠ "include"} {rest : List Statement} {values : List Value}
      (hrest : Expands files rest values) :
      Expands files (.word text h :: rest) (.text text :: values)
  | inclusion {file : String} {body rest : List Statement} {inner values : List Value}
      (hfile : files.lookup file = some body) (hbody : Expands files body inner)
      (hrest : Expands files rest values) :
      Expands files (.inclusion file :: rest)
        ((Statement.inclusion file).value :: (inner ++ values))

/-- The statements that a statement puts in front of those behind it. -/
inductive Opens (files : Library) : Statement → List Statement → Prop
  | word {text : String} {h : text ≠ "include"} : Opens files (.word text h) []
  | inclusion {file : String} {body : List Statement} (hfile : files.lookup file = some body) :
      Opens files (.inclusion file) body

/-- What is read of a row of statements: an included file stands in front of the rest, if
there is a rest. -/
inductive Reads (files : Library) : List Statement → List Value → Prop
  | nil : Reads files [] []
  | last {statement : Statement} : Reads files [statement] [statement.value]
  | cons {statement : Statement} {body rest : List Statement} {values : List Value}
      (hne : rest ≠ [])
      (hopens : Opens files statement body) (hrest : Reads files (body ++ rest) values) :
      Reads files (statement :: rest) (statement.value :: values)

/-- The values that are not read: those of the file that the last statement of all includes. -/
inductive Overlooked (files : Library) : List Statement → List Value → Prop
  | nothing {statements : List Statement}
      (h : ∀ file, statements.getLast? ≠ some (.inclusion file)) : Overlooked files statements []
  | file {statements body : List Statement} {file : String} {values : List Value}
      (hlast : statements.getLast? = some (.inclusion file)) (hfile : files.lookup file = some body)
      (hbody : Expands files body values) : Overlooked files statements values

-- ---------------------------------------------------------------------------
-- Expansions
-- ---------------------------------------------------------------------------

/-- Every inclusion is one of a file there is. -/
def Closed (files : Library) (statements : List Statement) : Prop :=
  ∀ file, .inclusion file ∈ statements → ∃ body, files.lookup file = some body

/-- An expansion is a value for each statement, and more. -/
theorem Expands.eq_nil_iff (h : Expands files statements values) :
    values = [] ↔ statements = [] := by
  cases h with
  | nil => exact iff_of_true rfl rfl
  | word => exact iff_of_false (List.cons_ne_nil _ _) (List.cons_ne_nil _ _)
  | inclusion => exact iff_of_false (List.cons_ne_nil _ _) (List.cons_ne_nil _ _)

/-- Statements have one expansion. -/
theorem Expands.unique {values' : List Value} (h : Expands files statements values)
    (h' : Expands files statements values') : values = values' := by
  induction h generalizing values' with
  | nil =>
    cases h'
    rfl
  | word _ ih =>
    cases h' with
    | word hrest => rw [ih hrest]
  | inclusion hfile _ _ ihbody ih =>
    cases h' with
    | inclusion hfile' hbody hrest =>
      rw [hfile, Option.some.injEq] at hfile'
      subst hfile'
      rw [ihbody hbody, ih hrest]

/-- The expansion of a row ends with that of its end. -/
theorem Expands.split {init : List Statement} (h : Expands files (init ++ rest) values) :
    ∃ before after, values = before ++ after ∧ Expands files init before ∧
      Expands files rest after := by
  induction init generalizing values with
  | nil => exact ⟨[], values, rfl, .nil, h⟩
  | cons statement init ih =>
    cases h with
    | word hrest =>
      obtain ⟨before, after, rfl, hbefore, hafter⟩ := ih hrest
      exact ⟨_, after, rfl, .word hbefore, hafter⟩
    | inclusion hfile hbody hrest =>
      obtain ⟨before, after, rfl, hbefore, hafter⟩ := ih hrest
      refine ⟨_, after, ?_, .inclusion hfile hbody hbefore, hafter⟩
      rw [List.cons_append, List.append_assoc]

/-- A row has an expansion if all files that it includes have one. -/
theorem expands_of_files (h : ∀ file, .inclusion file ∈ statements → ∃ body values,
    files.lookup file = some body ∧ Expands files body values) :
    ∃ values, Expands files statements values := by
  induction statements with
  | nil => exact ⟨[], .nil⟩
  | cons statement rest ih =>
    obtain ⟨values, hrest⟩ := ih fun file hfile => h file (List.mem_cons_of_mem _ hfile)
    cases statement with
    | word text hword => exact ⟨_, .word hrest⟩
    | inclusion file =>
      obtain ⟨body, inner, hfile, hbody⟩ := h file (List.mem_cons_self ..)
      exact ⟨_, .inclusion hfile hbody hrest⟩

/-- There are finitely many files, so without a cycle no chain of inclusions goes on for ever. -/
theorem wellFounded_of_acyclic (hacyclic : ∀ file, ¬ Relation.TransGen (Includes files) file file) :
    WellFounded fun (other file : { name // name ∈ files.map Prod.fst }) =>
      Includes files file.1 other.1 := by
  let Leads (other file : { name // name ∈ files.map Prod.fst }) : Prop :=
    Relation.TransGen (Includes files) file.1 other.1
  have htrans : IsTrans _ Leads := ⟨fun _ _ _ h h' => h'.trans h⟩
  have hirrefl : Std.Irrefl Leads := ⟨fun file h => hacyclic file.1 h⟩
  have hwf : WellFounded Leads := Finite.wellFounded_of_trans_of_irrefl _
  exact Subrelation.wf (fun h => Relation.TransGen.single h) hwf

theorem mem_of_lookup {file : String} {body : List Statement} (h : files.lookup file = some body) :
    (file, body) ∈ files := by
  obtain ⟨before, after, rfl, -⟩ := List.lookup_eq_some_iff.mp h
  exact List.mem_append_right _ List.mem_cons_self

theorem forall_lookup {P : String → List Statement → Prop}
    (h : ∀ entry ∈ files, P entry.1 entry.2) :
    ∀ file body, files.lookup file = some body → P file body := fun _ _ hfile =>
    h _ (mem_of_lookup hfile)

/-- Where every file only includes files of a lower rank there is no cycle. -/
theorem acyclic_of_rank (rank : String → Nat)
    (h : ∀ file body, files.lookup file = some body → ∀ other, .inclusion other ∈ body →
      rank other < rank file) (file : String) : ¬ Relation.TransGen (Includes files) file file := by
  have hlower : ∀ {other : String}, Relation.TransGen (Includes files) file other →
      rank other < rank file := by
    intro other hleads
    induction hleads with
    | single hincludes =>
      obtain ⟨body, hfile, hmem⟩ := hincludes
      exact h _ body hfile _ hmem
    | tail _ hincludes ih =>
      obtain ⟨body, hfile, hmem⟩ := hincludes
      exact (h _ body hfile _ hmem).trans ih
  exact fun hcycle => Nat.lt_irrefl _ (hlower hcycle)

/-- **Files without a cycle** have an expansion. -/
theorem expands_of_acyclic (hacyclic : ∀ file, ¬ Relation.TransGen (Includes files) file file)
    (hclosed : ∀ file body, files.lookup file = some body → Closed files body)
    (h : Closed files statements) : ∃ values, Expands files statements values := by
  have hname : ∀ {file body}, files.lookup file = some body → file ∈ files.map Prod.fst :=
    fun hfile =>
    List.mem_map_of_mem (f := Prod.fst) (mem_of_lookup hfile)
  have hfiles : ∀ file : { name // name ∈ files.map Prod.fst },
      ∀ body, files.lookup file.1 = some body → ∃ values, Expands files body values := by
    intro file
    induction file using (wellFounded_of_acyclic hacyclic).induction with
    | _ file ih =>
      intro body hbody
      refine expands_of_files fun other hother => ?_
      obtain ⟨body', hbody'⟩ := hclosed file.1 body hbody other hother
      obtain ⟨values, hvalues⟩ := ih ⟨other, hname hbody'⟩ ⟨body, hbody, hother⟩ body' hbody'
      exact ⟨body', values, hbody', hvalues⟩
  refine expands_of_files fun file hfile => ?_
  obtain ⟨body, hbody⟩ := h file hfile
  obtain ⟨values, hvalues⟩ := hfiles ⟨file, hname hbody⟩ body hbody
  exact ⟨body, values, hbody, hvalues⟩

-- ---------------------------------------------------------------------------
-- Reading
-- ---------------------------------------------------------------------------

/-- In front of other statements everything is read. -/
theorem Expands.reads_append (h : Expands files statements values) {more : List Value}
    (hne : rest ≠ [])
    (hrest : Reads files rest more) : Reads files (statements ++ rest) (values ++ more) := by
  induction h generalizing rest more with
  | nil => exact hrest
  | word _ ih => exact .cons (List.append_ne_nil_of_right_ne_nil _ hne) .word (ih hne hrest)
  | @inclusion file body behind _ _ hfile _ _ ihbody ih =>
    have hbehind : behind ++ rest ≠ [] := List.append_ne_nil_of_right_ne_nil _ hne
    rw [List.cons_append, List.cons_append, List.append_assoc]
    exact .cons hbehind (.inclusion hfile) (ihbody hbehind (ih hne hrest))

/-- **What is read** of a row of statements is its expansion, up to what is overlooked. -/
theorem Expands.reads (h : Expands files statements values) :
    ∃ seen lost, values = seen ++ lost ∧ Overlooked files statements lost ∧
      Reads files statements seen := by
  rcases List.eq_nil_or_concat statements with rfl | ⟨init, last, rfl⟩
  · cases h
    exact ⟨[], [], rfl, .nothing (by simp), .nil⟩
  · rw [List.concat_eq_append] at h ⊢
    obtain ⟨before, after, rfl, hbefore, hafter⟩ := h.split
    cases hafter with
    | @word text hword _ _ hnil =>
      cases hnil
      refine ⟨before ++ [.text text], [], (List.append_nil _).symm, .nothing fun file => ?_, ?_⟩
      · simp
      · exact hbefore.reads_append (List.cons_ne_nil _ _) .last
    | @inclusion file body _ inner _ hfile hbody hnil =>
      cases hnil
      refine ⟨before ++ [(Statement.inclusion file).value], inner,
        by simp, .file (by simp) hfile hbody, ?_⟩
      exact hbefore.reads_append (List.cons_ne_nil _ _) .last

/-- Nothing is overlooked unless a file with statements is included last. -/
theorem Overlooked.eq_nil_iff {lost : List Value} (h : Overlooked files statements lost) :
    lost = [] ↔
      ∀ file, statements.getLast? = some (.inclusion file) → files.lookup file = some [] := by
  cases h with
  | nothing h => exact iff_of_true rfl fun file hlast => absurd hlast (h file)
  | @file body file _ hlast hfile hbody =>
    rw [hbody.eq_nil_iff]
    constructor
    · rintro rfl other hother
      rw [hlast, Option.some.injEq, Statement.inclusion.injEq] at hother
      rw [← hother, hfile]
    · intro h
      have hempty := h file hlast
      rw [hfile, Option.some.injEq] at hempty
      exact hempty

end Library

end GrammarEngine
