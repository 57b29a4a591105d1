import GrammarEngine.Proofs.Inclusion.Agenda

/-!
# Files that include each other

Reading a main file leads from file to file. A walk keeps all files through which the current one is
included, and it stops where one of them is included again, since that is a cycle (`Walks`).

A reader that looks one word ahead keeps fewer files: behind the last statement of a file it has
closed the file before it carries out what the statement says. An inclusion is refused only of a
file that it has kept (`advance`). So a cycle may go unnoticed; then it is walked a second time, on
top of the files that were kept. Either one of these comes up, and is refused, or none of the cycle
was kept (`Spent`), and it is walked for ever.

Main results:

* `Reached.history` — how a walk has come to the files that it keeps.
* `comes_recursive_iff` — where a walk ends in a cycle, an inclusion is refused exactly if the
  cycle is not spent.
* `comes_iff` — reading comes to an end exactly if no walk ends in a spent cycle.
* `Reached.ends_of_spent` — each file of a spent cycle ends with the inclusion of the next one.
-/

namespace GrammarEngine

namespace Agenda

/-- The files of which statements are left. -/
def unfinished (agenda : Agenda) : Agenda := agenda.filter fun entry => !entry.2.isEmpty

/-- All files from the current one down to the named one are read to their end, and some
are below. -/
def Spent (agenda : Agenda) (name : String) : Prop :=
  ∃ upper lower, agenda = upper ++ (name, []) :: lower ∧
    (∀ entry ∈ upper, entry.2 = []) ∧ lower ≠ []

variable {agenda below : Agenda} {file name : String} {statement : Statement}
  {rest : List Statement}

@[simp] theorem unfinished_cons_cons : unfinished ((file, statement :: rest) :: below) =
    (file, statement :: rest) :: unfinished below := rfl

@[simp] theorem unfinished_nil_cons : unfinished ((file, []) :: below) = unfinished below := rfl

/-- The unfinished files of two agendas are those of both. -/
theorem unfinished_append (upper lower : Agenda) :
    unfinished (upper ++ lower) = unfinished upper ++ unfinished lower :=
  List.filter_append ..

/-- A file is unfinished if statements are left of it. -/
theorem mem_unfinished {entry : String × List Statement} :
    entry ∈ unfinished agenda ↔ entry ∈ agenda ∧ entry.2 ≠ [] := by
  unfold unfinished
  rw [List.mem_filter, Bool.not_eq_true', ← Bool.not_eq_true, List.isEmpty_iff]

/-- Where all files are read to their end none is unfinished. -/
theorem unfinished_of_spent (h : ∀ entry ∈ agenda, entry.2 = []) : unfinished agenda = [] := by
  refine List.eq_nil_iff_forall_not_mem.mpr fun entry hentry => ?_
  obtain ⟨hmem, hne⟩ := mem_unfinished.mp hentry
  exact hne (h entry hmem)

/-- A file with statements left is one of the unfinished ones. -/
theorem mem_names_unfinished {entry : String × List Statement}
    (h : entry ∈ agenda) (hne : entry.2 ≠ []) :
    entry.1 ∈ (unfinished agenda).names := mem_names_of_mem (mem_unfinished.mpr ⟨h, hne⟩)

/-- Unfinished files are among those that are kept. -/
theorem names_unfinished_subset (agenda : Agenda) : (unfinished agenda).names ⊆ agenda.names := by
  intro name hname
  obtain ⟨entry, hentry, rfl⟩ := List.mem_map.mp hname
  exact mem_names_of_mem (mem_unfinished.mp hentry).1

theorem names_append (upper lower : Agenda) : names (upper ++ lower) = names upper ++ names lower :=
  List.map_append ..

/-- What is left to be read is left in unfinished files. -/
theorem left_unfinished (agenda : Agenda) : agenda.unfinished.left = agenda.left := by
  induction agenda with
  | nil => rfl
  | cons entry below ih =>
    obtain ⟨file, _ | ⟨statement, rest⟩⟩ := entry
    · exact ih
    · rw [unfinished_cons_cons, left_cons, left_cons, ih]

theorem left_append (upper lower : Agenda) : left (upper ++ lower) = left upper ++ left lower :=
  List.flatMap_append ..

/-- Where something is left, there is a file to read it from. -/
theorem exists_unfinished (h : agenda.left ≠ []) : ∃ entry ∈ agenda, entry.2 ≠ [] := by
  obtain ⟨statement, hstatement⟩ := List.exists_mem_of_ne_nil _ h
  obtain ⟨entry, hentry, hmem⟩ := List.mem_flatMap.mp hstatement
  exact ⟨entry, hentry, List.ne_nil_of_mem hmem⟩

/-- Of a row of files only the current one can be read to its end: then it is closed. -/
theorem trimmed_unfinished (h : left ((file, rest) :: below) ≠ []) :
    trimmed ((file, rest) :: unfinished below) = unfinished ((file, rest) :: below) := by
  cases rest with
  | cons statement rest => rw [trimmed_cons_cons, unfinished_cons_cons]
  | nil =>
    have hbelow : left below ≠ [] := h
    obtain ⟨entry, hentry, hne⟩ := exists_unfinished hbelow
    cases hkept : unfinished below with
    | nil =>
      have hmem := mem_unfinished.mpr ⟨hentry, hne⟩
      rw [hkept] at hmem
      cases hmem
    | cons first others =>
      have hfirst : first ∈ unfinished below := by
        rw [hkept]
        exact List.mem_cons_self ..
      obtain ⟨file', _ | ⟨statement, rest⟩⟩ := first
      · exact absurd rfl (mem_unfinished.mp hfirst).2
      · rw [trimmed_nil_cons, trimmed_cons_cons, unfinished_nil_cons, hkept]

end Agenda

namespace Library

open Agenda (names left trimmed unfinished Spent)

variable {files : Library} {main file other : String} {body statements rest : List Statement}
  {agenda agenda' below chain chain' upper upper' lower base : Agenda}

-- ---------------------------------------------------------------------------
-- Walks
-- ---------------------------------------------------------------------------

/-- From statement to statement, with all files through which the current one is included. A file is
entered where statements are left behind its inclusion, since otherwise it is not read at all. -/
inductive Walks (files : Library) : Agenda → Agenda → Prop
  | word {text : String} {h : text ≠ "include"} {file : String} {rest : List Statement}
      {below : Agenda} : Walks files ((file, .word text h :: rest) :: below) ((file, rest) :: below)
  | inclusion {file other : String} {rest body : List Statement} {below : Agenda}
      (hleft : left ((file, rest) :: below) ≠ []) (hnew : other ∉ names ((file, rest) :: below))
      (hfile : files.lookup other = some body) :
      Walks files ((file, .inclusion other :: rest) :: below)
        ((other, body) :: (file, rest) :: below)
  | done {file : String} {entry : String × List Statement} {below : Agenda} :
      Walks files ((file, []) :: entry :: below) (entry :: below)

/-- What is reached from the beginning of a main file. -/
def Reached (files : Library) (main : String) (body : List Statement) : Agenda → Prop :=
  Relation.ReflTransGen (Walks files) [(main, body)]

/-- A walk in which files below are not touched. -/
def Above (files : Library) (lower : Agenda) (upper upper' : Agenda) : Prop :=
  upper ≠ [] ∧ Walks files (upper ++ lower) (upper' ++ lower)

/-- Where statements are left now, some were left before. -/
theorem Walks.left_ne_nil (h : Walks files chain chain')
    (hleft : left chain' ≠ []) : left chain ≠ [] := by
  cases h with
  | word => exact List.cons_ne_nil _ _
  | inclusion => exact List.cons_ne_nil _ _
  | done => exact hleft

/-- A walk does not bring statements back once all are read. -/
theorem Reached.left_ne_nil (h : Relation.ReflTransGen (Walks files) chain chain')
    (hleft : left chain' ≠ []) : left chain ≠ [] := by
  induction h with
  | refl => exact hleft
  | tail _ hwalks ih => exact ih (hwalks.left_ne_nil hleft)

/-- **How a file was reached.** It was entered from the files below it, which stand as they did
then; it was none of them, and statements were left in them. -/
theorem Reached.history (hmain : files.lookup main = some body) (h : Reached files main body chain)
    (upper : Agenda) (heq : chain = upper ++ (file, rest) :: lower) :
    ∃ inner, files.lookup file = some inner ∧
      Relation.ReflTransGen (Above files lower) [(file, inner)] (upper ++ [(file, rest)]) ∧
      file ∉ names lower ∧ (lower ≠ [] → left lower ≠ []) := by
  induction h generalizing upper file rest lower with
  | refl =>
    cases upper with
    | nil =>
      cases heq
      exact ⟨body, hmain, .refl, List.not_mem_nil, fun h => absurd rfl h⟩
    | cons first others =>
      obtain ⟨-, hnil⟩ := List.cons.inj heq
      exact absurd hnil (List.append_ne_nil_of_right_ne_nil _ (List.cons_ne_nil _ _)).symm
  | @tail before _ _ hwalks ih =>
    -- a step that does not touch the files below goes on from an earlier row of files
    have hgoes : ∀ earlier rest', before = earlier ++ (file, rest') :: lower → ∃ inner,
        files.lookup file = some inner ∧
        Relation.ReflTransGen (Above files lower) [(file, inner)] (upper ++ [(file, rest)]) ∧
        file ∉ names lower ∧ (lower ≠ [] → left lower ≠ []) := by
      intro earlier rest' hbefore
      obtain ⟨inner, hfile, habove, hnew, hleft⟩ := ih earlier hbefore
      refine ⟨inner, hfile,
        habove.tail ⟨List.append_ne_nil_of_right_ne_nil _ (List.cons_ne_nil _ _), ?_⟩, hnew, hleft⟩
      rw [heq, hbefore] at hwalks
      rw [List.append_assoc, List.append_assoc]
      exact hwalks
    cases hwalks with
    | word =>
      cases upper with
      | nil =>
        cases heq
        exact hgoes [] _ rfl
      | cons first others =>
        cases heq
        exact hgoes (_ :: others) _ rfl
    | @inclusion _ _ _ _ _ hleft hnew hfile =>
      rcases upper with _ | ⟨first, _ | ⟨second, others⟩⟩
      · -- the file has just been entered
        cases heq
        exact ⟨_, hfile, .refl, hnew, fun _ => hleft⟩
      · cases heq
        exact hgoes [] _ rfl
      · cases heq
        exact hgoes (_ :: others) _ rfl
    | done => exact hgoes (_ :: upper) rest (by rw [heq]; rfl)

-- ---------------------------------------------------------------------------
-- Looking one word ahead
-- ---------------------------------------------------------------------------

/-- What reading comes to: the end, or an inclusion that is refused since the file is open,
or not there. -/
inductive Verdict where
  | completed
  | recursive (file : String)
  | missing (file : String)

/-- One statement is read, with the word behind it, and carried out. -/
def advance (files : Library) : Agenda → Agenda ⊕ Verdict
  | (file, .word _ _ :: rest) :: below =>
    if left ((file, rest) :: below) = [] then .inr .completed else
      .inl (trimmed ((file, rest) :: below))
  | (file, .inclusion other :: rest) :: below =>
    if other ∈ names (trimmed ((file, rest) :: below)) then .inr (.recursive other)
    else
      match files.lookup other with
      | none => .inr (.missing other)
      | some body =>
        -- Behind the end of the whole input no file is read any more.
        if left ((file, rest) :: below) = [] then .inr .completed
        else .inl (trimmed ((other, body) :: trimmed ((file, rest) :: below)))
  | _ => .inr .completed

/-- At the end of the main file reading is over. -/
theorem advance_nil (files : Library) (file : String) (below : Agenda) :
    advance files ((file, []) :: below) = .inr .completed := rfl

/-- A word is read, and the files that end with it are closed. -/
theorem advance_word_cons {text : String} {h : text ≠ "include"} :
    advance files ((file, .word text h :: rest) :: below) =
      if left ((file, rest) :: below) = [] then .inr .completed else
        .inl (trimmed ((file, rest) :: below)) := by
  rw [advance]

/-- An inclusion of a file that is open is refused. -/
theorem advance_open (h : other ∈ names (trimmed ((file, rest) :: below))) :
    advance files ((file, .inclusion other :: rest) :: below) = .inr (.recursive other) := by
  rw [advance, if_pos h]

/-- An inclusion of a file that is not there is refused, too. -/
theorem advance_missing (hnew : other ∉ names (trimmed ((file, rest) :: below)))
    (hfile : files.lookup other = none) :
    advance files ((file, .inclusion other :: rest) :: below) = .inr (.missing other) := by
  rw [advance, if_neg hnew, hfile]

/-- Any other inclusion goes on with the file, or it is the end. -/
theorem advance_found (hnew : other ∉ names (trimmed ((file, rest) :: below)))
    (hfile : files.lookup other = some body) :
    advance files ((file, .inclusion other :: rest) :: below) =
      if left ((file, rest) :: below) = [] then .inr .completed
      else .inl (trimmed ((other, body) :: trimmed ((file, rest) :: below))) := by
  rw [advance, if_neg hnew, hfile]

/-- One statement is read, and there are more. -/
def Advances (files : Library) (agenda agenda' : Agenda) : Prop :=
  advance files agenda = .inl agenda'

/-- What reading comes to. -/
inductive Comes (files : Library) : Agenda → Verdict → Prop
  | stop {agenda : Agenda} {verdict : Verdict} (h : advance files agenda = .inr verdict) :
      Comes files agenda verdict
  | step {agenda agenda' : Agenda} {verdict : Verdict} (h : Advances files agenda agenda')
      (hrest : Comes files agenda' verdict) : Comes files agenda verdict

variable {verdict : Verdict}

/-- What reading comes to later it comes to now. -/
theorem Comes.of_advances (h : Relation.ReflTransGen (Advances files) agenda agenda')
    (hcomes : Comes files agenda' verdict) : Comes files agenda verdict := by
  induction h using Relation.ReflTransGen.head_induction_on with
  | refl => exact hcomes
  | head hstep _ ih => exact .step hstep ih

/-- And what it comes to now it comes to after any step, as there is one step only. -/
theorem Comes.after (h : Comes files agenda verdict) (hstep : Advances files agenda agenda') :
    Comes files agenda' verdict := by
  cases h with
  | stop hstop => cases hstop.symm.trans hstep
  | step hstep' hrest => exact Sum.inl.inj (hstep'.symm.trans hstep) ▸ hrest

/-- On a cycle reading never comes to anything. -/
theorem not_comes_of_cycle (h : Relation.TransGen (Advances files) agenda agenda) :
    ¬ Comes files agenda verdict := by
  intro hcomes
  induction hcomes with
  | stop hstop =>
    obtain ⟨agenda', hstep, -⟩ := Relation.TransGen.head'_iff.mp h
    cases hstop.symm.trans hstep
  | @step first second _ hstep _ ih =>
    obtain ⟨agenda', hstep', hback⟩ := Relation.TransGen.head'_iff.mp h
    obtain rfl := Sum.inl.inj (hstep.symm.trans hstep')
    exact ih (.tail' hback hstep)

/-- So if it comes to nothing later, it comes to nothing now. -/
theorem not_comes_of_advances (h : Relation.ReflTransGen (Advances files) agenda agenda')
    (hnever : ¬ Comes files agenda' verdict) : ¬ Comes files agenda verdict := by
  induction h with
  | refl => exact hnever
  | tail _ hstep ih => exact ih fun hcomes => hnever (hcomes.after hstep)

/-- A file that is included while others are unfinished. -/
theorem advances_inclusion (hleft : left ((file, rest) :: below) ≠ [])
    (hnew : other ∉ names (unfinished ((file, rest) :: below)))
    (hfile : files.lookup other = some body) :
    Advances files (unfinished ((file, .inclusion other :: rest) :: below))
      (unfinished ((other, body) :: (file, rest) :: below)) := by
  have htrimmed := Agenda.trimmed_unfinished hleft
  have hleft' : left ((file, rest) :: unfinished below) ≠ [] := by
    rw [Agenda.left_cons, Agenda.left_unfinished]
    exact hleft
  have hinner : left ((other, body) :: (file, rest) :: below) ≠ [] :=
    List.append_ne_nil_of_right_ne_nil _ hleft
  rw [← htrimmed] at hnew
  rw [Agenda.unfinished_cons_cons, Advances, advance_found hnew hfile, if_neg hleft', htrimmed,
    Agenda.trimmed_unfinished hinner]

/-- Reading a word of the unfinished files is reading it of all. -/
theorem advances_word {text : String} {h : text ≠ "include"}
    (hleft : left ((file, rest) :: below) ≠ []) :
    Advances files (unfinished ((file, .word text h :: rest) :: below))
      (unfinished ((file, rest) :: below)) := by
  have hleft' : left ((file, rest) :: unfinished below) ≠ [] := by
    rw [Agenda.left_cons, Agenda.left_unfinished]
    exact hleft
  rw [Agenda.unfinished_cons_cons, Advances, advance_word_cons, if_neg hleft',
    Agenda.trimmed_unfinished hleft]

-- ---------------------------------------------------------------------------
-- Walking on top of other files
-- ---------------------------------------------------------------------------

/-- A file that is kept on the base, and that the walk above did not have there, is refused. -/
def Collides (files : Library) (lower base agenda : Agenda) : Prop :=
  ∃ name ∈ names (unfinished base), name ∉ names lower ∧ Comes files agenda (.recursive name)

/-- A step of a walk above some files can be read on top of others, as long as it does not name
one of these. -/
theorem Above.advances (h : Above files lower upper upper') (hleft : left (upper' ++ lower) ≠ [])
    (hbase : left lower ≠ [] → left base ≠ [])
    (hnew : ∀ name ∈ names upper, name ∉ names (unfinished base)) :
    (Relation.ReflTransGen (Advances files) (unfinished (upper ++ base))
      (unfinished (upper' ++ base)) ∧ ∀ name ∈ names upper', name ∉ names (unfinished base)) ∨
    Collides files lower base (unfinished (upper ++ base)) := by
  obtain ⟨hne, hwalks⟩ := h
  obtain ⟨⟨file, statements⟩, above, rfl⟩ := List.exists_cons_of_ne_nil hne
  have hlater : ∀ {rest : List Statement}, left ((file, rest) :: above ++ lower) ≠ [] →
      left ((file, rest) :: above ++ base) ≠ [] := by
    intro rest hleft
    rw [Agenda.left_append] at hleft ⊢
    by_cases hupper : left ((file, rest) :: above) = []
    · rw [hupper, List.nil_append] at hleft
      exact List.append_ne_nil_of_right_ne_nil _ (hbase hleft)
    · exact List.append_ne_nil_of_left_ne_nil hupper _
  rw [List.cons_append] at hwalks
  generalize hrow : above ++ lower = row, hrow' : upper' ++ lower = row' at hwalks
  cases hwalks with
  | word =>
    subst hrow
    rw [← List.cons_append] at hrow'
    obtain rfl := List.append_cancel_right hrow'
    exact .inl ⟨.single (advances_word (hlater hleft)), hnew⟩
  | done =>
    rw [← hrow] at hrow'
    obtain rfl := List.append_cancel_right hrow'
    exact .inl ⟨.refl, fun name hname => hnew name (List.mem_cons_of_mem _ hname)⟩
  | @inclusion _ other rest body _ hmore hother hfile =>
    subst hrow
    rw [← List.cons_append, ← List.cons_append] at hrow'
    obtain rfl := List.append_cancel_right hrow'
    have hmore' : left ((file, rest) :: (above ++ base)) ≠ [] := hlater hmore
    rw [← List.cons_append, Agenda.names_append, List.mem_append, not_or] at hother
    have hopen : unfinished ((file, rest) :: (above ++ base)) =
        unfinished ((file, rest) :: above) ++ unfinished base :=
          Agenda.unfinished_append ((file, rest) :: above) base
    by_cases hkept : other ∈ names (unfinished base)
    · -- the file is one of the base
      have hrefused : other ∈ names (trimmed ((file, rest) :: unfinished (above ++ base))) := by
        rw [Agenda.trimmed_unfinished hmore', hopen, Agenda.names_append]
        exact List.mem_append_right _ hkept
      exact .inr ⟨other, hkept, hother.2, .stop (advance_open hrefused)⟩
    · have hfresh : other ∉ names (unfinished ((file, rest) :: (above ++ base))) := by
        rw [hopen, Agenda.names_append, List.mem_append, not_or]
        exact ⟨fun h => hother.1 (Agenda.names_unfinished_subset _ h), hkept⟩
      refine .inl ⟨.single (advances_inclusion hmore' hfresh hfile), fun name hname => ?_⟩
      rcases List.mem_cons.mp hname with rfl | hname
      · exact hkept
      · exact hnew name hname

/-- **A walk above some files** can be read on top of others, up to where it names one of these. -/
theorem Above.reads (base : Agenda) (h : Relation.ReflTransGen (Above files lower) upper upper')
    (hleft : left (upper' ++ lower) ≠ []) (hbase : left lower ≠ [] → left base ≠ [])
    (hnew : ∀ name ∈ names upper, name ∉ names (unfinished base)) :
    (Relation.ReflTransGen (Advances files) (unfinished (upper ++ base))
      (unfinished (upper' ++ base)) ∧ ∀ name ∈ names upper', name ∉ names (unfinished base)) ∨
    Collides files lower base (unfinished (upper ++ base)) := by
  induction h with
  | refl => exact .inl ⟨.refl, hnew⟩
  | tail _ hstep ih =>
    rcases ih (hstep.2.left_ne_nil hleft) with ⟨hreads, hnew'⟩ | hcollides
    · rcases hstep.advances hleft hbase hnew'
        with ⟨hadvances, hnew''⟩ | ⟨name, hkept, hother, hcomes⟩
      · exact .inl ⟨hreads.trans hadvances, hnew''⟩
      · exact .inr ⟨name, hkept, hother, hcomes.of_advances hreads⟩
    · exact .inr hcollides

/-- What a walk reaches with statements left, reading reaches with the unfinished files of it. -/
theorem Reached.advances (h : Reached files main body chain) (hleft : left chain ≠ []) :
    Relation.ReflTransGen (Advances files) [(main, body)] (unfinished chain) := by
  have habove : Walks files ≤ Above files [] := by
    intro before after hwalks
    refine ⟨?_, ?_⟩
    · cases hwalks <;> exact List.cons_ne_nil _ _
    · rw [List.append_nil, List.append_nil]
      exact hwalks
  have hwalk : Relation.ReflTransGen (Above files []) [(main, body)] chain :=
    Relation.ReflTransGen.mono habove _ _ h
  have hbody : left [(main, body)] ≠ [] := Reached.left_ne_nil h hleft
  have hstart : unfinished [(main, body)] = [(main, body)] := by
    cases body with
    | nil => exact absurd rfl hbody
    | cons statement rest => rfl
  rw [← List.append_nil chain] at hleft
  rcases Above.reads [] hwalk hleft (fun h => h) (fun _ _ => List.not_mem_nil) with
    ⟨hreads, -⟩ | ⟨name, hkept, -⟩
  · rw [List.append_nil, List.append_nil, hstart] at hreads
    exact hreads
  · cases hkept

-- ---------------------------------------------------------------------------
-- Cycles
-- ---------------------------------------------------------------------------

/-- A file is included through which the current one is: the walk has come from where it was
entered, and what stands below has not changed since. -/
theorem Reached.cycle (hmain : files.lookup main = some body)
    (h : Reached files main body ((file, .inclusion other :: rest) :: below))
    (heq : (file, rest) :: below = upper ++ (other, []) :: lower) : ∃ inner cycle,
      files.lookup other = some inner ∧
      Relation.ReflTransGen (Above files lower) [(other, inner)] cycle ∧
      cycle ++ lower = (file, .inclusion other :: rest) :: below ∧ names upper ⊆ names cycle ∧
      other ∉ names lower ∧ (lower ≠ [] → left lower ≠ []) := by
  cases upper with
  | nil =>
    cases heq
    obtain ⟨inner, hfile, habove, hnew, hleft⟩ := h.history hmain [] rfl
    exact ⟨inner, _, hfile, habove, rfl, List.nil_subset _, hnew, hleft⟩
  | cons first others =>
    cases heq
    obtain ⟨inner, hfile, habove, hnew, hleft⟩ := h.history hmain (_ :: others) rfl
    refine ⟨inner, _, hfile, habove, ?_, ?_, hnew, hleft⟩
    · simp
    · rw [Agenda.names_append]
      exact List.subset_append_left ..

/-- **A spent cycle** is walked for ever. -/
theorem not_comes_of_spent (hmain : files.lookup main = some body)
    (h : Reached files main body ((file, .inclusion other :: rest) :: below))
    (hspent : Spent ((file, rest) :: below) other) : ¬ Comes files [(main, body)] verdict := by
  obtain ⟨upper, lower, heq, hupper, hlower⟩ := hspent
  obtain ⟨inner, cycle, hfile, habove, hcycle, -, hnew, hkept⟩ := h.cycle hmain heq
  have hlower' : left lower ≠ [] := hkept hlower
  -- what is kept of the cycle is nothing
  have hnothing : unfinished ((file, rest) :: below) = unfinished lower := by
    rw [heq, Agenda.unfinished_append, Agenda.unfinished_of_spent hupper, List.nil_append,
      Agenda.unfinished_nil_cons]
  have hleft : left ((file, rest) :: below) ≠ [] := by
    rw [heq, Agenda.left_append]
    exact List.append_ne_nil_of_right_ne_nil _ hlower'
  have hagain : Advances files (unfinished ((file, .inclusion other :: rest) :: below))
      (unfinished ([(other, inner)] ++ lower)) := by
    have hsame : unfinished ((other, inner) :: (file, rest) :: below) =
        unfinished ([(other, inner)] ++ lower) := by
      rw [← List.singleton_append, Agenda.unfinished_append, hnothing, ← Agenda.unfinished_append]
    rw [← hsame]
    exact advances_inclusion hleft
      (fun h => hnew (Agenda.names_unfinished_subset _ (hnothing ▸ h))) hfile
  have hfresh : ∀ name ∈ names [(other, inner)], name ∉ names (unfinished lower) := by
    intro name hname hlow
    rw [List.mem_singleton.mp hname] at hlow
    exact hnew (Agenda.names_unfinished_subset _ hlow)
  have hround : left (cycle ++ lower) ≠ [] := by
    rw [hcycle]
    exact List.cons_ne_nil _ _
  rcases Above.reads lower habove hround id hfresh with ⟨hreads, -⟩ | ⟨name, hkept', hother, -⟩
  · rw [hcycle] at hreads
    have hmain' := h.advances (List.cons_ne_nil _ _)
    exact not_comes_of_advances (hmain'.tail hagain) (not_comes_of_cycle (.tail' hreads hagain))
  · exact absurd (Agenda.names_unfinished_subset _ hkept') hother

/-- **A cycle that is not spent**: an inclusion is refused, at once or when the cycle is
walked again. -/
theorem comes_recursive_of_not_spent (hmain : files.lookup main = some body)
    (h : Reached files main body ((file, .inclusion other :: rest) :: below))
    (hinside : other ∈ names ((file, rest) :: below))
    (hspent : ¬ Spent ((file, rest) :: below) other) :
    ∃ name, Comes files [(main, body)] (.recursive name) := by
  have hmain' := h.advances (List.cons_ne_nil _ _)
  by_cases hopen : other ∈ names (trimmed ((file, rest) :: unfinished below))
  · exact ⟨other, .of_advances hmain' (.stop (advance_open hopen))⟩
  -- the file is not open any more, so it was read to its end
  have hleft : left ((file, rest) :: below) ≠ [] := by
    intro hnone
    obtain ⟨-, -, -, -, hbelow⟩ := h.history hmain [] rfl
    obtain ⟨hrest, hnone'⟩ := List.append_eq_nil_iff.mp hnone
    have hempty : below = [] := by_contra fun hne => hbelow hne hnone'
    obtain rfl : rest = [] := hrest
    subst hempty
    exact hopen hinside
  rw [Agenda.trimmed_unfinished hleft] at hopen
  obtain ⟨⟨other', statements⟩, hentry, rfl⟩ := List.mem_map.mp hinside
  obtain rfl : statements = [] := by
    by_contra hne
    exact hopen (Agenda.mem_names_unfinished hentry hne)
  obtain ⟨upper, lower, heq⟩ := List.append_of_mem hentry
  obtain ⟨inner, cycle, hfile, habove, hcycle, hnames, -, -⟩ := h.cycle hmain heq
  -- some file of the cycle is unfinished
  obtain ⟨entry, hupper, hne⟩ : ∃ entry ∈ upper, entry.2 ≠ [] := by
    by_contra hall
    push Not at hall
    refine hspent ⟨upper, lower, heq, hall, ?_⟩
    rintro rfl
    obtain ⟨entry, hentry', hne⟩ := Agenda.exists_unfinished hleft
    rw [heq, List.mem_append, List.mem_singleton] at hentry'
    rcases hentry' with hentry' | rfl
    · exact hne (hall entry hentry')
    · exact hne rfl
  have hfresh : ∀ name ∈ names [(other', inner)],
      name ∉ names (unfinished ((file, rest) :: below)) := by
    intro name hname
    rw [List.mem_singleton.mp hname]
    exact hopen
  have hround : left (cycle ++ lower) ≠ [] := by
    rw [hcycle]
    exact List.cons_ne_nil _ _
  rcases Above.reads _ habove hround (fun _ => hleft) hfresh with ⟨-, hnew⟩ | ⟨name, -, -, hcomes⟩
  · have hkept : entry.1 ∈ names (unfinished ((file, rest) :: below)) := by
      refine Agenda.mem_names_unfinished ?_ hne
      rw [heq]
      exact List.mem_append_left _ hupper
    exact absurd hkept (hnew entry.1 (hnames (Agenda.mem_names_of_mem hupper)))
  · exact ⟨name, .of_advances (hmain'.tail (advances_inclusion hleft hopen hfile)) hcomes⟩

-- ---------------------------------------------------------------------------
-- Inclusions that end a file
-- ---------------------------------------------------------------------------

/-- The last statement of a file includes another one. -/
def Ends (files : Library) (file other : String) : Prop :=
  ∃ statements, files.lookup file = some statements ∧ statements.getLast? = some (.inclusion other)

/-- Each file was entered at an inclusion of it, which stood before what is left of the
file below. -/
inductive Linked (files : Library) : Agenda → Prop
  | main {file : String} {body rest : List Statement} (hfile : files.lookup file = some body)
      (hrest : rest <:+ body) : Linked files [(file, rest)]
  | entered {file other : String} {body rest behind : List Statement} {below : Agenda}
      (hfile : files.lookup file = some body) (hrest : rest <:+ body)
      (hbelow : Linked files ((other, .inclusion file :: behind) :: below)) :
      Linked files ((file, rest) :: (other, behind) :: below)

/-- What is left of a file is the rear of its text. -/
theorem Linked.suffix (h : Linked files ((file, rest) :: below)) :
    ∃ body, files.lookup file = some body ∧ rest <:+ body := by
  cases h with
  | main hfile hrest => exact ⟨_, hfile, hrest⟩
  | entered hfile hrest _ => exact ⟨_, hfile, hrest⟩

/-- Reading a statement leaves the files linked. -/
theorem Linked.behind {statement : Statement}
    (h : Linked files ((file, statement :: rest) :: below)) :
    Linked files ((file, rest) :: below) := by
  cases h with
  | main hfile hrest => exact .main hfile ((List.suffix_cons ..).trans hrest)
  | entered hfile hrest hbelow => exact .entered hfile ((List.suffix_cons ..).trans hrest) hbelow

/-- So does each step of a walk: a file is entered at an inclusion of it. -/
theorem Walks.linked (h : Walks files chain chain') (hlinked : Linked files chain) :
    Linked files chain' := by
  cases h with
  | word => exact hlinked.behind
  | inclusion _ _ hfile => exact .entered hfile (List.suffix_refl _) hlinked
  | done =>
    cases hlinked with
    | entered _ _ hbelow => exact hbelow.behind

/-- All files of a walk are linked. -/
theorem Reached.linked (hmain : files.lookup main = some body) (h : Reached files main body chain) :
    Linked files chain := by
  induction h with
  | refl => exact .main hmain (List.suffix_refl _)
  | tail _ hwalks ih => exact hwalks.linked ih

/-- An inclusion that is the last statement left of a file ends that file. -/
theorem Linked.ends (h : Linked files ((file, [.inclusion other]) :: below)) :
    Ends files file other := by
  obtain ⟨body, hfile, init, rfl⟩ := h.suffix
  exact ⟨_, hfile, List.getLast?_concat ..⟩

/-- Where all files are read to their end down to a named one, each of them ends with the
inclusion of the next. -/
theorem Linked.ends_down {name : String}
    (h : Linked files ((file, .inclusion other :: rest) :: below))
    (upper : Agenda) (heq : upper ++ (name, []) :: lower = (file, rest) :: below)
    (hupper : ∀ entry ∈ upper, entry.2 = []) : Relation.TransGen (Ends files) name other := by
  induction upper generalizing file other rest below with
  | nil =>
    cases heq
    exact .single h.ends
  | cons first upper ih =>
    obtain ⟨rfl, hbelow⟩ := List.cons.inj heq
    obtain rfl : rest = [] := hupper _ (List.mem_cons_self ..)
    have hrest : ∀ entry ∈ upper, entry.2 = [] := fun entry hentry =>
      hupper entry (List.mem_cons_of_mem _ hentry)
    refine .tail ?_ h.ends
    cases h with
    | main => exact absurd hbelow (List.append_ne_nil_of_right_ne_nil _ (List.cons_ne_nil _ _))
    | entered _ _ hbefore => exact ih hbefore hbelow hrest

/-- **A spent cycle** consists of files that end with the inclusion of the next one. -/
theorem Reached.ends_of_spent (hmain : files.lookup main = some body)
    (h : Reached files main body ((file, .inclusion other :: rest) :: below))
    (hspent : Spent ((file, rest) :: below) other) :
    Relation.TransGen (Ends files) other other := by
  obtain ⟨upper, lower, heq, hupper, -⟩ := hspent
  exact (h.linked hmain).ends_down upper heq.symm hupper

-- ---------------------------------------------------------------------------
-- Every walk ends
-- ---------------------------------------------------------------------------

/-- Where a walk ends: at the last statement of all, or at an inclusion of a file that is being
included or is not there. -/
inductive Final (files : Library) : Agenda → Prop
  | last {file : String} {statement : Statement} {rest : List Statement} {below : Agenda}
      (h : left ((file, rest) :: below) = []) : Final files ((file, statement :: rest) :: below)
  | inside {file other : String} {rest : List Statement} {below : Agenda}
      (h : other ∈ names ((file, rest) :: below)) :
      Final files ((file, .inclusion other :: rest) :: below)
  | missing {file other : String} {rest : List Statement} {below : Agenda}
      (h : other ∉ names ((file, rest) :: below)) (hfile : files.lookup other = none) :
      Final files ((file, .inclusion other :: rest) :: below)

/-- The files that may be entered still. -/
def unentered (files : Library) (chain : Agenda) : List String :=
  (files.map Prod.fst).filter fun name => name ∉ names chain

/-- A file that is entered cannot be entered once more. -/
theorem length_unentered_lt (hfile : files.lookup other = some body) (hnew : other ∉ names chain) :
    (unentered files ((other, body) :: chain)).length < (unentered files chain).length := by
  have hfilter : unentered files ((other, body) :: chain) =
      (unentered files chain).filter fun name => name ≠ other := by
    unfold unentered
    rw [List.filter_filter]
    refine List.filter_congr fun name _ => ?_
    simp [not_or]
  rw [hfilter, List.length_filter_lt_length_iff_exists]
  refine ⟨other, List.mem_filter.mpr ⟨List.mem_map_of_mem (mem_of_lookup hfile), ?_⟩, ?_⟩
  · simpa using hnew
  · simp

/-- **A walk through the statements of a file** ends on the way, or goes on below the file. -/
theorem exists_final (file : String) (statements : List Statement) (below : Agenda)
    (hleft : left ((file, statements) :: below) ≠ []) :
    (∃ chain,
      Relation.ReflTransGen (Walks files) ((file, statements) :: below) chain ∧ Final files chain) ∨
    (left below ≠ [] ∧
      Relation.ReflTransGen (Walks files) ((file, statements) :: below) ((file, []) :: below)) := by
  match statements with
  | [] => exact .inr ⟨hleft, .refl⟩
  | statement :: rest =>
    by_cases hrest : left ((file, rest) :: below) = []
    · exact .inl ⟨_, .refl, .last hrest⟩
    -- behind the statement the same file goes on
    have hbehind : Relation.ReflTransGen (Walks files) ((file, statement :: rest) :: below)
        ((file, rest) :: below) →
        (∃ chain, Relation.ReflTransGen (Walks files) ((file, statement :: rest) :: below) chain ∧
          Final files chain) ∨ (left below ≠ [] ∧
          Relation.ReflTransGen (Walks files) ((file, statement :: rest) :: below) ((file, []) ::
            below)) := by
      intro hstep
      rcases exists_final file rest below hrest with ⟨chain, hreached, hfinal⟩ | ⟨hbelow, hreached⟩
      · exact .inl ⟨chain, hstep.trans hreached, hfinal⟩
      · exact .inr ⟨hbelow, hstep.trans hreached⟩
    cases statement with
    | word text h => exact hbehind (.single .word)
    | inclusion other =>
      by_cases hnew : other ∈ names ((file, rest) :: below)
      · exact .inl ⟨_, .refl, .inside hnew⟩
      cases hfile : files.lookup other with
      | none => exact .inl ⟨_, .refl, .missing hnew hfile⟩
      | some body =>
        have henter : Walks files ((file, .inclusion other :: rest) :: below)
            ((other, body) :: (file, rest) :: below) := .inclusion hrest hnew hfile
        rcases exists_final other body ((file, rest) :: below)
            (List.append_ne_nil_of_right_ne_nil _ hrest) with
          ⟨chain, hreached, hfinal⟩ | ⟨-, hreached⟩
        · exact .inl ⟨chain, .head henter hreached, hfinal⟩
        · exact hbehind (.head henter (hreached.tail .done))
termination_by ((unentered files ((file, statements) :: below)).length, statements.length)
decreasing_by
  · exact Prod.Lex.right _ (Nat.lt_succ_self _)
  · exact Prod.Lex.left _ _ (length_unentered_lt hfile hnew)

/-- With the last statement of all reading comes to an end. -/
theorem exists_verdict_of_last (h : left ((file, rest) :: below) = []) (statement : Statement) :
    ∃ verdict, advance files ((file, statement :: rest) :: below) = .inr verdict := by
  cases statement with
  | word text hword => exact ⟨.completed, by rw [advance_word_cons, if_pos h]⟩
  | inclusion other =>
    by_cases hopen : other ∈ names (trimmed ((file, rest) :: below))
    · exact ⟨.recursive other, advance_open hopen⟩
    · cases hfile : files.lookup other with
      | none => exact ⟨.missing other, advance_missing hopen hfile⟩
      | some body => exact ⟨.completed, by rw [advance_found hopen hfile, if_pos h]⟩

-- ---------------------------------------------------------------------------
-- What reading comes to
-- ---------------------------------------------------------------------------

/-- **Where a walk ends in a cycle**, an inclusion is refused exactly if the cycle is not spent. -/
theorem comes_recursive_iff (hmain : files.lookup main = some body)
    (h : Reached files main body ((file, .inclusion other :: rest) :: below))
    (hinside : other ∈ names ((file, rest) :: below)) :
    (∃ name, Comes files [(main, body)] (.recursive name)) ↔
      ¬ Spent ((file, rest) :: below) other :=
  ⟨fun ⟨_, hcomes⟩ hspent => not_comes_of_spent hmain h hspent hcomes,
    comes_recursive_of_not_spent hmain h hinside⟩

/-- **Reading comes to an end** exactly if no walk ends in a spent cycle. -/
theorem comes_iff (hmain : files.lookup main = some body) :
    (∃ verdict, Comes files [(main, body)] verdict) ↔
    ∀ file other rest below, Reached files main body ((file, .inclusion other :: rest) :: below) →
      other ∈ names ((file, rest) :: below) → ¬ Spent ((file, rest) :: below) other := by
  constructor
  · rintro ⟨verdict, hcomes⟩ file other rest below h - hspent
    exact not_comes_of_spent hmain h hspent hcomes
  · intro hcycles
    by_cases hbody : left [(main, body)] = []
    · obtain rfl : body = [] := (List.append_eq_nil_iff.mp hbody).1
      exact ⟨.completed, .stop rfl⟩
    obtain ⟨chain, hreached, hfinal⟩ :=
      (exists_final main body [] hbody).resolve_right fun h => h.1 rfl
    have hreached' : Reached files main body chain := hreached
    cases hfinal with
    | last hlast =>
      have hadvances := hreached'.advances (List.cons_ne_nil _ _)
      rw [Agenda.unfinished_cons_cons] at hadvances
      rw [Agenda.left_cons, ← Agenda.left_unfinished, ← Agenda.left_cons] at hlast
      obtain ⟨verdict, hstop⟩ := exists_verdict_of_last hlast _
      exact ⟨verdict, .of_advances hadvances (.stop hstop)⟩
    | inside hinside =>
      obtain ⟨name, hcomes⟩ :=
        comes_recursive_of_not_spent hmain hreached' hinside (hcycles _ _ _ _ hreached' hinside)
      exact ⟨.recursive name, hcomes⟩
    | @missing file other rest below hnew hfile =>
      have hadvances := hreached'.advances (List.cons_ne_nil _ _)
      rw [Agenda.unfinished_cons_cons] at hadvances
      have hclosed : other ∉ names (trimmed ((file, rest) :: unfinished below)) := by
        intro hopen
        obtain ⟨entry, hentry, rfl⟩ := List.mem_map.mp hopen
        rcases List.mem_cons.mp ((Agenda.trimmed_suffix _).subset hentry) with rfl | hentry
        · exact hnew (List.mem_cons_self ..)
        · exact hnew
            (List.mem_cons_of_mem _ (Agenda.mem_names_of_mem (Agenda.mem_unfinished.mp hentry).1))
      exact ⟨.missing other, .of_advances hadvances
        (.stop (advance_missing hclosed hfile))⟩

end Library

end GrammarEngine
