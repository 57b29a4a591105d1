import GrammarEngine.Grammar.Compile
import Mathlib.Logic.Relation
import Mathlib.Data.List.Nodup
import Mathlib.Data.List.Perm.Subperm

/-!
# Rules that can match nothing

`Grammar.Vanishing` says on its own, as the least relation closed under the two reasons there are,
when a rule can match nothing: it is marked as optional, or all elements of all its patterns refer
to rules that can. The question whether a rule is optional is answered by a search with a memo and a
list of the rules being worked out. This module proves that the search answers the question.

The point of the proof is the answer "no" for a rule that is met again while it is being worked out.
That answer is kept in the memo by everything it passes through, so it has to be right for good, and
not only for the question at hand. It is: a rule that is needed for its own vanishing does not
vanish (`Vanishing.not_cyclic`), since a derivation is finite.

Main results:

* `Vanishing.not_cyclic` — no vanishing rule needs itself.
* `settles_ruleOptional` — the search answers with `vanishes`, and keeps the memo truthful.
* `settles_isOptional` — so does the question without any rule being worked out.
-/

namespace GrammarEngine

namespace Grammar

variable {α β γ : Type}

-- ---------------------------------------------------------------------------
-- Rules and their names
-- ---------------------------------------------------------------------------

/-- Every reference of a grammar names one of its rules. -/
def Closed (g : Grammar α) : Prop :=
  ∀ r ∈ g.rules, ∀ p ∈ r.patterns, ∀ d ∈ p.tokens, d.isTerminal = false →
    ∃ s, g.find? d.name = some s

instance (g : Grammar α) : Decidable g.Closed :=
  decidable_of_iff (∀ r ∈ g.rules, ∀ p ∈ r.patterns, ∀ d ∈ p.tokens, d.isTerminal = false →
    (g.find? d.name).isSome = true) (by simp only [Closed, Option.isSome_iff_exists])

/-- A rule found by its name is one of the grammar. -/
theorem mem_of_find?_eq_some {g : Grammar α} {name : String} {r : Rule α}
    (h : g.find? name = some r) : r ∈ g.rules :=
  List.mem_of_find?_eq_some h

/-- Different rules have different names. -/
theorem eq_of_name_eq {g : Grammar α} {r s : Rule α} (hr : r ∈ g.rules) (hs : s ∈ g.rules)
    (h : r.name = s.name) : r = s :=
  List.inj_on_of_nodup_map g.distinct hr hs h

/-- No two rules of a grammar have the same identity. -/
theorem eq_of_id_eq {g : Grammar α} {r s : Rule α} (hr : r ∈ g.rules) (hs : s ∈ g.rules)
    (h : r.id = s.id) : r = s :=
  eq_of_name_eq hr hs (congrArg RuleId.name h)

/-- A rule is found by its identity. -/
theorem byId?_of_mem {g : Grammar α} {r : Rule α} (hr : r ∈ g.rules) : g.byId? r.id = some r := by
  cases h : g.byId? r.id with
  | none =>
    have := List.find?_eq_none.mp h r hr
    simp at this
  | some s =>
    have hs : s ∈ g.rules := List.mem_of_find?_eq_some h
    have hid : s.id = r.id := by simpa using List.find?_some h
    rw [eq_of_id_eq hs hr hid]

/-- A rule is found by its name. -/
theorem find?_of_mem {g : Grammar α} {r : Rule α} (hr : r ∈ g.rules) : g.find? r.name = some r := by
  cases h : g.find? r.name with
  | none =>
    have := List.find?_eq_none.mp h r hr
    simp at this
  | some s =>
    rw [eq_of_name_eq (mem_of_find?_eq_some h) hr (name_of_find?_eq_some h)]

/-- A reference to a rule that is there is resolved. -/
theorem referenced_of_find?_eq_some {g : Grammar α} {name : String} {r : Rule α}
    (pattern : List Descriptor) (h : g.find? name = some r) :
    g.referenced name pattern = .ok r := by
  rw [referenced, h]

-- ---------------------------------------------------------------------------
-- Vanishing
-- ---------------------------------------------------------------------------

/-- A rule can match nothing: it is marked as optional, or every element of every pattern refers to
a rule that can. -/
inductive Vanishing (g : Grammar α) : Rule α → Prop
  | marked {r : Rule α} (h : r.markedOptional = true) : Vanishing g r
  | patterns {r : Rule α}
      (href : ∀ p ∈ r.patterns, ∀ d ∈ p.tokens, d.isTerminal = false ∧ ∃ s, g.find? d.name = some s)
      (h : ∀ p ∈ r.patterns, ∀ d ∈ p.tokens, ∀ s, g.find? d.name = some s → Vanishing g s) :
      Vanishing g r

/-- An element that can be passed over: a reference to a rule that can match nothing. -/
def Skippable (g : Grammar α) (d : Descriptor) : Prop :=
  d.isTerminal = false ∧ ∃ s, g.find? d.name = some s ∧ g.Vanishing s

/-- A rule that is not marked needs the rules that its patterns refer to, in order to vanish. -/
def Needs (g : Grammar α) (r s : Rule α) : Prop :=
  r.markedOptional = false ∧ ∃ p ∈ r.patterns, ∃ d ∈ p.tokens, g.find? d.name = some s

/-- A rule that needs itself does not vanish: around the cycle the derivation would have no end. -/
theorem Vanishing.not_cyclic {g : Grammar α} {r : Rule α} (h : g.Vanishing r) :
    ¬ Relation.TransGen g.Needs r r := by
  induction h with
  | marked hmarked =>
    intro hcycle
    obtain ⟨s, hfirst, -⟩ := Relation.TransGen.head'_iff.mp hcycle
    rw [hfirst.1] at hmarked
    cases hmarked
  | @patterns r _ _ ih =>
    intro hcycle
    -- the cycle starts over from the rule needed first, which is smaller
    obtain ⟨s, hfirst, hrest⟩ := Relation.TransGen.head'_iff.mp hcycle
    obtain ⟨_, p, hp, d, hd, hs⟩ := id hfirst
    exact ih p hp d hd s hs (Relation.TransGen.tail' hrest hfirst)

/-- An unmarked rule vanishes exactly if all elements of its patterns can be passed over. -/
theorem vanishing_iff_of_unmarked {g : Grammar α} {r : Rule α} (hr : r.markedOptional = false) :
    g.Vanishing r ↔ ∀ p ∈ r.patterns, ∀ d ∈ p.tokens, g.Skippable d := by
  constructor
  · intro h p hp d hd
    cases h with
    | marked hmarked =>
      rw [hmarked] at hr
      cases hr
    | patterns href h =>
      obtain ⟨ht, s, hs⟩ := href p hp d hd
      exact ⟨ht, s, hs, h p hp d hd s hs⟩
  · intro h
    refine .patterns (fun p hp d hd => ?_) (fun p hp d hd s hs => ?_)
    · obtain ⟨ht, s, hs, -⟩ := h p hp d hd
      exact ⟨ht, s, hs⟩
    · obtain ⟨-, s', hs', hv⟩ := h p hp d hd
      rw [hs] at hs'
      cases hs'
      exact hv

open Classical in
/-- Whether a rule can match nothing, as a truth value. -/
noncomputable def vanishes (g : Grammar α) (r : Rule α) : Bool := decide (g.Vanishing r)

open Classical in
/-- Whether an element can be passed over, as a truth value. -/
noncomputable def skips (g : Grammar α) (d : Descriptor) : Bool := decide (g.Skippable d)

@[simp] theorem vanishes_eq_true {g : Grammar α} {r : Rule α} :
    g.vanishes r = true ↔ g.Vanishing r := by
  simp [vanishes]

@[simp] theorem skips_eq_true {g : Grammar α} {d : Descriptor} :
    g.skips d = true ↔ g.Skippable d := by
  simp [skips]

/-- A terminal cannot be passed over. -/
theorem skips_of_isTerminal {g : Grammar α} {d : Descriptor} (h : d.isTerminal = true) :
    g.skips d = false := by
  rw [Bool.eq_false_iff, ne_eq, skips_eq_true]
  rintro ⟨ht, -⟩
  rw [h] at ht
  cases ht

/-- A reference can be passed over if its rule can match nothing. -/
theorem skips_of_find? {g : Grammar α} {d : Descriptor} {s : Rule α} (ht : d.isTerminal = false)
    (hs : g.find? d.name = some s) : g.skips d = g.vanishes s := by
  rw [Bool.eq_iff_iff, skips_eq_true, vanishes_eq_true]
  constructor
  · rintro ⟨-, s', hs', hv⟩
    rw [hs] at hs'
    cases hs'
    exact hv
  · intro hv
    exact ⟨ht, s, hs, hv⟩

-- ---------------------------------------------------------------------------
-- Questions with a memo
-- ---------------------------------------------------------------------------

/-- All that is in the memo about rules of the grammar is so. -/
def Truthful (g : Grammar α) (memo : Memo) : Prop :=
  ∀ r ∈ g.rules, ∀ answer, memo.lookup r.id = some answer → answer = g.vanishes r

/-- A computation with a memo has a value that does not depend on the memo, as long as that is
truthful. The memo stays truthful, and nothing is forgotten. -/
def Settles (g : Grammar α) (x : Run Memo β) (v : β) : Prop :=
  ∀ memo, g.Truthful memo → ∃ memo', x.run memo = ⟨.ok v, memo', []⟩ ∧ g.Truthful memo' ∧
    ∀ id, (memo.lookup id).isSome → (memo'.lookup id).isSome

/-- An empty memo is truthful. -/
theorem truthful_nil (g : Grammar α) : g.Truthful [] := by
  intro r _ answer h
  cases h

/-- A true answer may be remembered. -/
theorem Truthful.remember {g : Grammar α} {memo : Memo} (h : g.Truthful memo) {r : Rule α}
    (hr : r ∈ g.rules) : g.Truthful (memo.remember r.id (g.vanishes r)) := by
  intro s hs answer ha
  rw [Memo.lookup_remember] at ha
  split at ha
  · next hid =>
    rw [eq_of_id_eq hs hr hid]
    exact (Option.some.inj ha).symm
  · exact h s hs answer ha

/-- Nothing is forgotten by remembering. -/
theorem isSome_lookup_remember (id other : RuleId) (answer : Bool) (memo : Memo)
    (h : (memo.lookup other).isSome) : ((memo.remember id answer).lookup other).isSome := by
  rw [Memo.lookup_remember]
  split
  · rfl
  · exact h

/-- A value settles by itself. -/
theorem settles_pure (g : Grammar α) (v : β) : g.Settles (pure v) v :=
  fun memo h => ⟨memo, rfl, h, fun _ hid => hid⟩

/-- One computation may follow another. -/
theorem settles_bind {g : Grammar α} {x : Run Memo β} {v : β} {f : β → Run Memo γ} {w : γ}
    (hx : g.Settles x v) (hf : g.Settles (f v) w) : g.Settles (x >>= f) w := by
  intro memo h
  obtain ⟨memo₁, hrun₁, htrue₁, hkeep₁⟩ := hx memo h
  obtain ⟨memo₂, hrun₂, htrue₂, hkeep₂⟩ := hf memo₁ htrue₁
  refine ⟨memo₂, ?_, htrue₂, fun id hid => hkeep₂ id (hkeep₁ id hid)⟩
  rw [Run.run_bind, hrun₁]
  simp only [hrun₂, List.append_nil]

/-- So may a result that is at hand. -/
theorem settles_ofExcept {g : Grammar α} {x : Except Fault β} {v : β} (h : x = .ok v) :
    g.Settles (Run.ofExcept x) v := by
  subst h
  exact settles_pure g v

/-- The question about the elements of a pattern is answered by `skips`, if the one about rules is
answered by `vanishes`. -/
theorem settles_elementsOptional {g : Grammar α} {ask : Rule α → Run Memo Bool}
    (pattern tokens : List Descriptor)
    (hclosed : ∀ d ∈ tokens, d.isTerminal = false → ∃ s, g.find? d.name = some s)
    (hask : ∀ d ∈ tokens, ∀ s, g.find? d.name = some s → g.Settles (ask s) (g.vanishes s)) :
    g.Settles (g.elementsOptional ask pattern tokens) (tokens.all g.skips) := by
  induction tokens with
  | nil => exact settles_pure g true
  | cons d rest ih =>
    have hrest := ih (fun d' hd' => hclosed d' (List.mem_cons_of_mem _ hd'))
      (fun d' hd' => hask d' (List.mem_cons_of_mem _ hd'))
    rw [elementsOptional, List.all_cons]
    cases ht : d.isTerminal with
    | true =>
      rw [skips_of_isTerminal ht]
      exact settles_pure g false
    | false =>
      obtain ⟨s, hs⟩ := hclosed d (List.mem_cons_self ..) ht
      have hanswer := hask d (List.mem_cons_self ..) s hs
      rw [skips_of_find? ht hs]
      refine settles_bind (settles_ofExcept (referenced_of_find?_eq_some pattern hs)) ?_
      refine settles_bind hanswer ?_
      cases g.vanishes s with
      | true => simpa using hrest
      | false => exact settles_pure g false

/-- **The patterns of a rule** are searched, element by element, for one that cannot be passed
over. -/
theorem settles_patternsOptional {g : Grammar α} {ask : Rule α → Run Memo Bool}
    (patterns : List (Pattern α))
    (hclosed : ∀ p ∈ patterns, ∀ d ∈ p.tokens, d.isTerminal = false → ∃ s, g.find? d.name = some s)
    (hask : ∀ p ∈ patterns, ∀ d ∈ p.tokens, ∀ s, g.find? d.name = some s →
      g.Settles (ask s) (g.vanishes s)) :
    g.Settles (g.patternsOptional ask patterns) (patterns.all fun p => p.tokens.all g.skips) := by
  induction patterns with
  | nil => exact settles_pure g true
  | cons p rest ih =>
    have hrest := ih (fun p' hp' => hclosed p' (List.mem_cons_of_mem _ hp'))
      (fun p' hp' => hask p' (List.mem_cons_of_mem _ hp'))
    rw [patternsOptional, List.all_cons]
    refine settles_bind (settles_elementsOptional p.tokens p.tokens
      (hclosed p (List.mem_cons_self ..)) (hask p (List.mem_cons_self ..))) ?_
    cases p.tokens.all g.skips with
    | true => simpa using hrest
    | false => exact settles_pure g false

-- ---------------------------------------------------------------------------
-- The search
-- ---------------------------------------------------------------------------

/-- If a rule is not marked, it is its patterns that can match nothing. -/
theorem all_skips_eq_vanishes {g : Grammar α} {r : Rule α} (hr : r.markedOptional = false) :
    (r.patterns.all fun p => p.tokens.all g.skips) = g.vanishes r := by
  rw [Bool.eq_iff_iff, vanishes_eq_true, vanishing_iff_of_unmarked hr]
  simp only [List.all_eq_true, skips_eq_true]

/-- Whatever a rule needs is needed by that rule and by all that need it. -/
theorem needed_by_visiting {g : Grammar α} {visiting : List String} {r s : Rule α}
    (hr : r ∈ g.rules) (hneed : g.Needs r s)
    (h : ∀ name ∈ visiting, ∃ t ∈ g.rules, t.name = name ∧ Relation.TransGen g.Needs t r) :
    ∀ name ∈ r.name :: visiting, ∃ t ∈ g.rules, t.name = name ∧ Relation.TransGen g.Needs t s := by
  intro name hname
  rcases List.mem_cons.mp hname with rfl | hname
  · exact ⟨r, hr, rfl, .single hneed⟩
  · obtain ⟨t, ht, htname, htneeds⟩ := h name hname
    exact ⟨t, ht, htname, htneeds.tail hneed⟩

/--
**The search for optional rules is right.** The rules in `visiting` are those being worked out,
each of which needs the rule in question; their names are different, so the bound on the nesting
is never reached.
-/
theorem settles_ruleOptional {g : Grammar α} (hg : g.Closed) :
    ∀ (n : Nat) (visiting : List String) (r : Rule α), r ∈ g.rules →
      visiting.Nodup → g.rules.length < n + visiting.length →
      (∀ name ∈ visiting, ∃ s ∈ g.rules, s.name = name ∧ Relation.TransGen g.Needs s r) →
      g.Settles (g.ruleOptional n visiting r) (g.vanishes r) := by
  intro n
  induction n with
  | zero =>
    intro visiting r _ hnodup hlen hvisiting
    exfalso
    have hsub : visiting ⊆ g.rules.map Rule.name := by
      intro name hname
      obtain ⟨s, hs, rfl, -⟩ := hvisiting name hname
      exact List.mem_map_of_mem hs
    have := (hnodup.subperm hsub).length_le
    rw [List.length_map] at this
    omega
  | succ n ih =>
    intro visiting r hr hnodup hlen hvisiting memo hmemo
    cases hlookup : memo.lookup r.id with
    | some answer =>
      have hanswer := hmemo r hr answer hlookup
      refine ⟨memo, ?_, hmemo, fun _ hid => hid⟩
      rw [ruleOptional_of_memo n visiting hlookup, hanswer]
    | none =>
      cases hmarked : r.markedOptional with
      | true =>
        have hv : g.vanishes r = true := vanishes_eq_true.mpr (.marked hmarked)
        refine ⟨memo.remember r.id true, ?_, ?_, fun id hid => isSome_lookup_remember _ _ _ _ hid⟩
        · rw [ruleOptional_of_marked n visiting hlookup hmarked, hv]
        · rw [← hv]
          exact hmemo.remember hr
      | false =>
        by_cases hmem : r.name ∈ visiting
        · -- met again: the rule needs itself, so the answer is no for good
          obtain ⟨s, hs, hname, hneeds⟩ := hvisiting r.name hmem
          have hsr : s = r := eq_of_name_eq hs hr hname
          rw [hsr] at hneeds
          have hv : g.vanishes r = false := by
            rw [Bool.eq_false_iff, ne_eq, vanishes_eq_true]
            exact fun h => h.not_cyclic hneeds
          refine ⟨memo, ?_, hmemo, fun _ hid => hid⟩
          rw [hv]
          simp [ruleOptional, hlookup, hmarked, hmem]
        · have hinner : g.Settles
              (g.patternsOptional (g.ruleOptional n (r.name :: visiting)) r.patterns)
              (g.vanishes r) := by
            rw [← all_skips_eq_vanishes hmarked]
            refine settles_patternsOptional r.patterns (hg r hr) fun p hp d hd s hs => ?_
            have hneed : g.Needs r s := ⟨hmarked, p, hp, d, hd, hs⟩
            refine ih (r.name :: visiting) s (mem_of_find?_eq_some hs)
              (List.nodup_cons.mpr ⟨hmem, hnodup⟩) ?_ ?_
            · rw [List.length_cons]
              omega
            · exact needed_by_visiting hr hneed hvisiting
          obtain ⟨memo', hrun, htrue, hkeep⟩ := hinner memo hmemo
          refine ⟨memo'.remember r.id (g.vanishes r), ?_, htrue.remember hr,
            fun id hid => isSome_lookup_remember _ _ _ _ (hkeep id hid)⟩
          simp [ruleOptional, hlookup, hmarked, hmem, hrun, Except.map]

/-- The question whether a rule is optional is answered by `vanishes`. -/
theorem settles_isOptional {g : Grammar α} (hg : g.Closed) {r : Rule α} (hr : r ∈ g.rules) :
    g.Settles (g.isOptional r) (g.vanishes r) := by
  refine settles_ruleOptional hg g.depth [] r hr List.nodup_nil ?_ ?_
  · rw [depth, List.length_nil]
    omega
  · intro name hname
    cases hname

/-- Once the question about a rule was asked, the memo knows the answer. -/
theorem lookup_of_isOptional {g : Grammar α} {r : Rule α} {memo memo' : Memo} {answer : Bool}
    (h : (g.isOptional r).run memo = ⟨.ok answer, memo', []⟩) :
    memo'.lookup r.id = some answer := by
  rw [isOptional, depth] at h
  cases hlookup : memo.lookup r.id with
  | some known =>
    rw [ruleOptional_of_memo _ _ hlookup] at h
    cases h
    exact hlookup
  | none =>
    cases hmarked : r.markedOptional with
    | true =>
      rw [ruleOptional_of_marked _ _ hlookup hmarked] at h
      cases h
      rw [Memo.lookup_remember, if_pos rfl]
    | false =>
      rw [ruleOptional, Run.run_bind_eq_ok] at h
      obtain ⟨_, s₁, _, _, hget, h, -⟩ := h
      cases hget
      simp only [hlookup, hmarked, List.not_mem_nil, if_false, Bool.false_eq_true] at h
      obtain ⟨found, s₂, _, _, -, h, -⟩ := Run.run_bind_eq_ok.mp h
      obtain ⟨_, s₃, _, _, hset, h, -⟩ := Run.run_bind_eq_ok.mp h
      cases hset
      cases h
      rw [Memo.lookup_remember, if_pos rfl]

end Grammar

end GrammarEngine
