import GrammarEngine.Proofs.Grammar.Vanishing
import Mathlib.Order.Bounds.Defs

/-!
# Asking which rules are optional

Questions whether a rule or a pattern is optional share one memo. What is kept in it may have been
worked out while another rule of the same cycle was still in question, where that rule counted as
one that is not optional. This module proves that such an entry is nevertheless right for good, so
that the questions can be asked in any order: all answers and all entries are told by the least set
of rules that holds every marked rule and every rule whose patterns consist of references into it.

Main results:

* `isLeast_vanishing` — the vanishing rules are that least set.
* `notes_ruleOptional` — a question adds entries to the memo only, and only right ones.
* `asked_least` — the answers to any questions, and the entries they leave.
-/

namespace GrammarEngine

namespace Grammar

variable {α β γ : Type} {g : Grammar α}

-- ---------------------------------------------------------------------------
-- The least set of optional rules
-- ---------------------------------------------------------------------------

/-- Every element is a reference to a rule of a set. -/
def Into (g : Grammar α) (O : Set (Rule α)) (tokens : List Descriptor) : Prop :=
  ∀ d ∈ tokens, d.isTerminal = false ∧ ∃ s ∈ O, g.find? d.name = some s

/-- A set holds every rule that is optional on account of it: one that is marked, or whose patterns
all consist of references into the set. -/
def Supports (g : Grammar α) (O : Set (Rule α)) : Prop :=
  ∀ r ∈ g.rules, (r.markedOptional = true ∨ ∀ p ∈ r.patterns, g.Into O p.tokens) → r ∈ O

/-- The rules that can match nothing. -/
def vanishingRules (g : Grammar α) : Set (Rule α) := {r | r ∈ g.rules ∧ g.Vanishing r}

theorem mem_of_vanishing {O : Set (Rule α)} (hO : g.Supports O) {r : Rule α} (h : g.Vanishing r)
    (hr : r ∈ g.rules) : r ∈ O := by
  induction h with
  | marked hmarked => exact hO _ hr (.inl hmarked)
  | patterns href _ ih =>
    refine hO _ hr (.inr fun p hp d hd => ?_)
    obtain ⟨hreference, s, hs⟩ := href p hp d hd
    exact ⟨hreference, s, ih p hp d hd s hs (mem_of_find?_eq_some hs), hs⟩

theorem into_vanishingRules {tokens : List Descriptor} :
    g.Into g.vanishingRules tokens ↔ ∀ d ∈ tokens, g.Skippable d := by
  refine forall₂_congr fun d _ => and_congr_right fun _ => ?_
  constructor
  · rintro ⟨s, ⟨-, hv⟩, hs⟩
    exact ⟨s, hs, hv⟩
  · rintro ⟨s, hs, hv⟩
    exact ⟨s, ⟨mem_of_find?_eq_some hs, hv⟩, hs⟩

/-- The vanishing rules are the least set that holds every rule that is optional on
account of it. -/
theorem isLeast_vanishing (g : Grammar α) : IsLeast {O | g.Supports O} g.vanishingRules := by
  refine ⟨fun r hr hreason => ⟨hr, ?_⟩, fun O hO r hr => mem_of_vanishing hO hr.2 hr.1⟩
  cases hmarked : r.markedOptional with
  | true => exact .marked hmarked
  | false =>
    rw [vanishing_iff_of_unmarked hmarked]
    obtain h | h := hreason
    · rw [hmarked] at h
      cases h
    · exact fun p hp => into_vanishingRules.1 (h p hp)

-- ---------------------------------------------------------------------------
-- What is put into the memo
-- ---------------------------------------------------------------------------

/-- An entry that tells of a rule whether it vanishes. -/
def Right (g : Grammar α) (entry : RuleId × Bool) : Prop :=
  ∃ r ∈ g.rules, r.id = entry.1 ∧ entry.2 = g.vanishes r

/-- A computation only adds entries to a truthful memo, and only right ones. -/
def Notes (g : Grammar α) (x : Run Memo β) : Prop :=
  ∀ memo, g.Truthful memo → ∃ new, (x.run memo).state = new ++ memo ∧ ∀ entry ∈ new, g.Right entry

/-- Right entries in front of a truthful memo leave it truthful. -/
theorem Truthful.append {memo new : Memo}
    (h : g.Truthful memo) (hnew : ∀ entry ∈ new, g.Right entry) : g.Truthful (new ++ memo) := by
  induction new with
  | nil => exact h
  | cons entry new ih =>
    obtain ⟨⟨s, hs, hid, hanswer⟩, hnew⟩ := List.forall_mem_cons.1 hnew
    have hentry : entry = (s.id, g.vanishes s) := Prod.ext hid.symm hanswer
    rw [List.cons_append, hentry]
    exact (ih hnew).remember hs

theorem notes_of_state {x : Run Memo β} (h : ∀ memo, (x.run memo).state = memo) : g.Notes x :=
  fun memo _ => ⟨[], h memo, nofun⟩

theorem notes_bind {x : Run Memo β} {f : β → Run Memo γ}
    (hx : g.Notes x) (hf : ∀ b, g.Notes (f b)) : g.Notes (x >>= f) := by
  intro memo hmemo
  obtain ⟨new, hstate, hnew⟩ := hx memo hmemo
  rw [Run.run_bind]
  rcases hrun : x.run memo with ⟨fault | b, s, trace⟩
  · exact ⟨new, by rw [← hstate, hrun], hnew⟩
  · obtain rfl : s = new ++ memo := by rw [← hstate, hrun]
    obtain ⟨later, hstate', hlater⟩ := hf b (new ++ memo) (hmemo.append hnew)
    refine ⟨later ++ new, by rw [List.append_assoc]; exact hstate', fun entry hentry => ?_⟩
    rcases List.mem_append.1 hentry with hentry | hentry
    · exact hlater entry hentry
    · exact hnew entry hentry

theorem notes_elementsOptional {ask : Rule α → Run Memo Bool} (pattern tokens : List Descriptor)
    (hask : ∀ d ∈ tokens, ∀ s, g.find? d.name = some s → g.Notes (ask s)) :
    g.Notes (g.elementsOptional ask pattern tokens) := by
  induction tokens with
  | nil => exact notes_of_state fun _ => rfl
  | cons d rest ih =>
    have hrest := ih fun d' hd' => hask d' (List.mem_cons_of_mem _ hd')
    rw [elementsOptional]
    split
    · exact notes_of_state fun _ => rfl
    · cases hs : g.find? d.name with
      | none =>
        rw [referenced, hs]
        exact notes_of_state fun _ => rfl
      | some s =>
        have hfound : (Run.ofExcept (.ok s) : Run Memo (Rule α)) = pure s := rfl
        rw [referenced_of_find?_eq_some pattern hs, hfound, pure_bind]
        refine notes_bind (hask d (List.mem_cons_self ..) s hs) fun answer => ?_
        cases answer with
        | true => exact hrest
        | false => exact notes_of_state fun _ => rfl

theorem notes_patternsOptional {ask : Rule α → Run Memo Bool} (patterns : List (Pattern α))
    (hask : ∀ p ∈ patterns, ∀ d ∈ p.tokens, ∀ s, g.find? d.name = some s → g.Notes (ask s)) :
    g.Notes (g.patternsOptional ask patterns) := by
  induction patterns with
  | nil => exact notes_of_state fun _ => rfl
  | cons p rest ih =>
    rw [patternsOptional]
    refine notes_bind (notes_elementsOptional p.tokens p.tokens (hask p (List.mem_cons_self ..)))
      fun answer => ?_
    cases answer with
    | true => exact ih fun p' hp' => hask p' (List.mem_cons_of_mem _ hp')
    | false => exact notes_of_state fun _ => rfl

/-- **Entries made on the way are right.** The rules in `visiting` are those being worked out, each
of which needs the rule in question. The answer for one of them does not go into the memo, and what
is worked out from that answer is right all the same. -/
theorem notes_ruleOptional (hg : g.Closed) (n : Nat) (visiting : List String) (r : Rule α)
    (hr : r ∈ g.rules) (hnodup : visiting.Nodup) (hlen : g.rules.length < n + visiting.length)
    (hvisiting : ∀ name ∈ visiting, ∃ s ∈ g.rules, s.name = name ∧ Relation.TransGen g.Needs s r) :
    g.Notes (g.ruleOptional n visiting r) := by
  induction n generalizing visiting r with
  | zero => exact notes_of_state fun _ => rfl
  | succ n ih =>
    intro memo hmemo
    obtain ⟨after, hanswer, -, -⟩ :=
      settles_ruleOptional hg (n + 1) visiting r hr hnodup hlen hvisiting memo hmemo
    cases hlookup : memo.lookup r.id with
    | some known => exact ⟨[], by rw [ruleOptional_of_memo n visiting hlookup]; rfl, nofun⟩
    | none =>
      cases hmarked : r.markedOptional with
      | true =>
        have hv : g.vanishes r = true := vanishes_eq_true.mpr (.marked hmarked)
        refine ⟨[(r.id, true)], by rw [ruleOptional_of_marked n visiting hlookup hmarked]; rfl, ?_⟩
        exact List.forall_mem_singleton.2 ⟨r, hr, rfl, hv.symm⟩
      | false =>
        by_cases hmem : r.name ∈ visiting
        · exact ⟨[], by simp [ruleOptional, hlookup, hmarked, hmem], nofun⟩
        · have hinner : g.Notes
              (g.patternsOptional (g.ruleOptional n (r.name :: visiting)) r.patterns) := by
            refine notes_patternsOptional r.patterns fun p hp d hd s hs => ?_
            have hneed : g.Needs r s := ⟨hmarked, p, hp, d, hd, hs⟩
            refine ih (r.name :: visiting) s (mem_of_find?_eq_some hs)
              (List.nodup_cons.mpr ⟨hmem, hnodup⟩) ?_ (needed_by_visiting hr hneed hvisiting)
            rw [List.length_cons]
            omega
          obtain ⟨new, hstate, hnew⟩ := hinner memo hmemo
          have hrun : (g.ruleOptional (n + 1) visiting r).run memo = (do
              let answer ← g.patternsOptional (g.ruleOptional n (r.name :: visiting)) r.patterns
              Run.modify (Memo.remember r.id answer)
              pure answer).run memo := by
            simp [ruleOptional, hlookup, hmarked, hmem]
          rw [hrun] at hanswer ⊢
          obtain ⟨answer, s, before, rest, hpatterns, hkept, -⟩ := Run.run_bind_eq_ok.1 hanswer
          obtain rfl : answer = g.vanishes r := Except.ok.inj (congrArg Outcome.result hkept)
          obtain rfl : s = new ++ memo := by rw [← hstate, hpatterns]
          refine ⟨(r.id, g.vanishes r) :: new, by rw [Run.run_bind, hpatterns]; rfl, ?_⟩
          exact List.forall_mem_cons.2 ⟨⟨r, hr, rfl, rfl⟩, hnew⟩

-- ---------------------------------------------------------------------------
-- Rows of questions
-- ---------------------------------------------------------------------------

/-- A question about a rule or about a pattern. -/
inductive Question (α : Type) where
  | rule (r : Rule α)
  | pattern (p : Pattern α)

namespace Question

/-- Asks a question; `bound` limits the nesting of the questions about rules. -/
def ask (g : Grammar α) (bound : Nat) : Question α → Run Memo Bool
  | rule r => g.ruleOptional bound [] r
  | pattern p => g.elementsOptional (g.ruleOptional bound []) p.tokens p.tokens

/-- Asks questions, one behind the other. -/
def askAll (g : Grammar α) (bound : Nat) (questions : List (Question α)) : Run Memo (List Bool) :=
  questions.mapM (ask g bound)

/-- The question is about a rule of the grammar, or about a pattern that only refers to
such rules. -/
def Known (g : Grammar α) : Question α → Prop
  | rule r => r ∈ g.rules
  | pattern p => ∀ d ∈ p.tokens, d.isTerminal = false → ∃ s, g.find? d.name = some s

/-- The answer is yes on account of a set of optional rules. -/
def Holds (g : Grammar α) (O : Set (Rule α)) : Question α → Prop
  | rule r => r ∈ O
  | pattern p => g.Into O p.tokens

/-- The right answer. -/
noncomputable def answer (g : Grammar α) : Question α → Bool
  | rule r => g.vanishes r
  | pattern p => p.tokens.all g.skips

theorem answer_eq_true {q : Question α} (hq : q.Known g) :
    q.answer g = true ↔ q.Holds g g.vanishingRules := by
  cases q with
  | rule r => exact vanishes_eq_true.trans (and_iff_right hq).symm
  | pattern p => simp only [answer, List.all_eq_true, skips_eq_true, Holds, into_vanishingRules]

variable {bound : Nat}

private theorem settles_top (hg : g.Closed) (hbound : g.rules.length < bound) {r : Rule α}
    (hr : r ∈ g.rules) : g.Settles (g.ruleOptional bound [] r) (g.vanishes r) :=
  settles_ruleOptional hg bound [] r hr .nil (by simpa using hbound) nofun

theorem settles_ask (hg : g.Closed) (hbound : g.rules.length < bound) {q : Question α}
    (hq : q.Known g) : g.Settles (q.ask g bound) (q.answer g) := by
  cases q with
  | rule r => exact settles_top hg hbound hq
  | pattern p =>
    exact settles_elementsOptional p.tokens p.tokens hq fun d _ s hs =>
      settles_top hg hbound (mem_of_find?_eq_some hs)

theorem notes_ask (hg : g.Closed) (hbound : g.rules.length < bound) {q : Question α}
    (hq : q.Known g) : g.Notes (q.ask g bound) := by
  have hrule {r : Rule α} (hr : r ∈ g.rules) : g.Notes (g.ruleOptional bound [] r) :=
    notes_ruleOptional hg bound [] r hr .nil (by simpa using hbound) nofun
  cases q with
  | rule r => exact hrule hq
  | pattern p =>
    exact notes_elementsOptional p.tokens p.tokens fun d _ s hs => hrule (mem_of_find?_eq_some hs)

/-- Questions asked one behind the other get the right answers, and leave right entries in
front of the memo. -/
theorem askAll_run (hg : g.Closed) (hbound : g.rules.length < bound) (questions : List (Question α))
    (hknown : ∀ q ∈ questions, q.Known g) {memo : Memo} (hmemo : g.Truthful memo) :
    ∃ new, (askAll g bound questions).run memo = ⟨.ok (questions.map (answer g)), new ++ memo, []⟩ ∧
      ∀ entry ∈ new, g.Right entry := by
  induction questions generalizing memo with
  | nil => exact ⟨[], rfl, nofun⟩
  | cons q rest ih =>
    obtain ⟨hq, hrest⟩ := List.forall_mem_cons.1 hknown
    obtain ⟨memo₁, hrun, -, -⟩ := settles_ask hg hbound hq memo hmemo
    obtain ⟨new, hstate, hnew⟩ := notes_ask hg hbound hq memo hmemo
    obtain rfl : memo₁ = new ++ memo := by rw [← hstate, hrun]
    obtain ⟨later, hlater, hright⟩ := ih hrest (hmemo.append hnew)
    refine ⟨later ++ new, ?_, fun entry hentry => ?_⟩
    · rw [askAll] at hlater ⊢
      rw [List.mapM_cons, Run.run_bind, hrun]
      simp only [Run.run_bind, hlater]
      simp
    · rcases List.mem_append.1 hentry with hentry | hentry
      · exact hright entry hentry
      · exact hnew entry hentry

end Question

/-- **The answers are those of the least set of optional rules.** In a grammar whose references all
name rules, any questions may be asked in any order, with any bound above the number of rules.
Starting from an empty memo they all get an answer: yes exactly for what the least set makes
optional. An entry is only ever put in front of the memo, so those made on the way are all still
there in the end; each of them tells of a rule of the grammar whether it is in the least set. -/
theorem asked_least {bound : Nat} (hg : g.Closed) (hbound : g.rules.length < bound)
    (questions : List (Question α)) (hknown : ∀ q ∈ questions, q.Known g) :
    ∃ O, IsLeast {O | g.Supports O} O ∧
      ∃ (answers : List Bool) (memo : Memo),
        (Question.askAll g bound questions).run [] = ⟨.ok answers, memo, []⟩ ∧
        List.Forall₂ (fun q answer => answer = true ↔ q.Holds g O) questions answers ∧
        ∀ entry ∈ memo, ∃ r ∈ g.rules, r.id = entry.1 ∧ (entry.2 = true ↔ r ∈ O) := by
  obtain ⟨memo, hrun, hright⟩ := Question.askAll_run hg hbound questions hknown g.truthful_nil
  rw [List.append_nil] at hrun
  refine ⟨g.vanishingRules, isLeast_vanishing g, _, memo, hrun, ?_, fun entry hentry => ?_⟩
  · rw [List.forall₂_map_right_iff, List.forall₂_same]
    exact fun q hq => Question.answer_eq_true (hknown q hq)
  · obtain ⟨r, hr, hid, hanswer⟩ := hright entry hentry
    exact ⟨r, hr, hid, by rw [hanswer, vanishes_eq_true]; exact (and_iff_right hr).symm⟩

/-- Two rules that refer to each other, one of them with an empty pattern besides, an empty rule,
and a rule of a marked one and the empty one. -/
private def knot : Grammar Unit where
  rules :=
    [{ id := ⟨"left", 0⟩, patterns := [.ofTokens [⟨.reference, "right"⟩] none, .ofTokens [] none] },
      { id := ⟨"right", 0⟩
        patterns := [.ofTokens [⟨.reference, "left"⟩] none,
          .ofTokens [⟨.reference, "empty"⟩] none] },
      { id := ⟨"empty", 0⟩, patterns := [.ofTokens [] none] },
      { id := ⟨"word", 0⟩, patterns := [.ofTokens [⟨.category, "ID"⟩] none],
        markedOptional := true },
      { id := ⟨"tail", 0⟩,
        patterns := [.ofTokens [⟨.reference, "word"⟩, ⟨.reference, "empty"⟩] none] }]
  distinct := by decide

/-- One question about a pattern, and one about each rule. -/
private def aboutKnot : List (Question Unit) :=
  .pattern (.ofTokens [⟨.reference, "left"⟩, ⟨.reference, "word"⟩] none) :: knot.rules.map .rule

/-- All of them are answered by the least set. -/
theorem asked_least_knot :
    knot.Closed ∧ knot.rules.length < knot.depth ∧ (∀ q ∈ aboutKnot, q.Known knot) ∧
    ∃ O, IsLeast {O | knot.Supports O} O ∧
      ∃ (answers : List Bool) (memo : Memo),
        (Question.askAll knot knot.depth aboutKnot).run [] = ⟨.ok answers, memo, []⟩ ∧
        List.Forall₂ (fun q answer => answer = true ↔ q.Holds knot O) aboutKnot answers ∧
        ∀ entry ∈ memo, ∃ r ∈ knot.rules, r.id = entry.1 ∧ (entry.2 = true ↔ r ∈ O) := by
  have hclosed : knot.Closed := by decide
  have hbound : knot.rules.length < knot.depth := by decide
  have hknown : ∀ q ∈ aboutKnot, q.Known knot := by
    refine List.forall_mem_cons.2 ⟨?_, fun q hq => ?_⟩
    · intro d hd _
      rcases List.mem_cons.1 hd with rfl | hd
      · exact ⟨_, rfl⟩
      · obtain rfl := List.mem_singleton.1 hd
        exact ⟨_, rfl⟩
    · obtain ⟨r, hr, rfl⟩ := List.mem_map.1 hq
      exact hr
  exact ⟨hclosed, hbound, hknown, asked_least hclosed hbound aboutKnot hknown⟩

example : ((Question.askAll knot knot.depth aboutKnot).run []).result.toOption =
    some [false, false, false, true, true, true] := by decide +kernel

end Grammar

end GrammarEngine
