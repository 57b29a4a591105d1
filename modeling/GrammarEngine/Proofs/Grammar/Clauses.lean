import GrammarEngine.Grammar.Clause
import GrammarEngine.Proofs.Grammar.Documentation

/-!
# What becomes of a rule when more is said about it

Whatever is said about a rule, the rule keeps its identity and its patterns: their elements and
their actions stay, others may come behind them, and the documentation of the latest one may change
(`Rule.Extends`). The only action that comes in is the one that a new pattern brings.

Main results:

* `documents_remark` — a remark changes the documentation only.
* `Clause.apply_extends` — what is said about a rule extends it.
* `Clause.forall_apply` — what all actions of a rule have in common, and the action that
  comes in has as well.
-/

namespace GrammarEngine

variable {α : Type}

namespace Rule

variable {r r' r'' : Rule α}

/-- `r.Extends r'`: the same rule, with all patterns that `r'` has, and others behind them. The
patterns may be documented in another way. -/
structure Extends (r r' : Rule α) : Prop where
  id_eq : r.id = r'.id
  patterns : r'.undocumented.patterns <+: r.undocumented.patterns

theorem Extends.refl (r : Rule α) : r.Extends r := ⟨rfl, List.prefix_rfl⟩

theorem Extends.trans (h : r.Extends r') (h' : r'.Extends r'') : r.Extends r'' :=
  ⟨h.id_eq.trans h'.id_eq, h'.patterns.trans h.patterns⟩

/-- A rule is extended by another one that differs in documentation only. -/
theorem extends_of_undocumented (h : r'.undocumented = r.undocumented) : r'.Extends r :=
  ⟨congrArg (fun r => r.id) h, h ▸ List.prefix_rfl⟩

theorem extends_addPattern (q : Pattern α) (r : Rule α) : (r.addPattern q).Extends r where
  id_eq := rfl
  patterns := by
    unfold undocumented addPattern
    rw [List.map_append]
    exact List.prefix_append _ _

/-- A pattern that a rule has is one of every rule that extends it, but for its documentation. -/
theorem Extends.getElem? (h : r'.Extends r) {pattern : Nat} {q : Pattern α}
    (hq : r.patterns[pattern]? = some q) :
    ∃ q', r'.patterns[pattern]? = some q' ∧ q'.undocumented = q.undocumented := by
  have hbare : r.undocumented.patterns[pattern]? = some q.undocumented := by
    unfold undocumented
    rw [List.getElem?_map, hq]
    rfl
  obtain ⟨more, hmore⟩ := h.patterns
  have hthere : r'.undocumented.patterns[pattern]? = some q.undocumented := by
    rw [← hmore, List.getElem?_append_left (List.getElem?_eq_some_iff.mp hbare).1]
    exact hbare
  unfold undocumented at hthere
  rwa [List.getElem?_map, Option.map_eq_some_iff] at hthere

end Rule

namespace Grammar

/-- **Remarks.** A remark changes at most the documentation of a rule. -/
theorem documents_remark (remark : Remark) : Documents (remark.apply : Rule α → _) := by
  cases remark with
  | doc | also | sample =>
    refine documents_changeLast fun _ p p' h => ?_
    obtain rfl := Except.ok.inj h
    rfl
  | describe | lastShown =>
    refine documents_changeLast fun _ p p' h => ?_
    split at h
    · cases h
    · obtain rfl := Except.ok.inj h
      rfl
  | arg index about =>
    refine documents_changeLast fun _ p p' h => ?_
    unfold Pattern.setArg at h
    split at h
    · obtain rfl := Except.ok.inj h
      rfl
    · cases h
  | support level =>
    refine documents_changeLast fun _ p p' h => ?_
    obtain ⟨level', -, h⟩ := bind_eq_ok.mp h
    obtain rfl := Except.ok.inj h
    rfl

/-- What all actions of a rule have in common does not depend on its documentation. -/
theorem forall_of_undocumented {trait : Option α → Prop} {r r' : Rule α}
    (hsame : r'.undocumented = r.undocumented)
    (h : ∀ q ∈ r.patterns, trait q.action) : ∀ q ∈ r'.patterns, trait q.action := by
  intro q hq
  have hmem : q.undocumented ∈ r.undocumented.patterns := hsame ▸ List.mem_map_of_mem hq
  obtain ⟨q', hq', heq⟩ := List.mem_map.mp hmem
  exact Pattern.action_of_undocumented heq ▸ h q' hq'

end Grammar

theorem Pattern.action_of_ofElements {elements : List Element} {action : Option α} {q : Pattern α}
    (h : Pattern.ofElements elements action = .ok q) : q.action = action := by
  unfold Pattern.ofElements at h
  obtain ⟨tokens, -, h⟩ := bind_eq_ok.mp h
  obtain rfl := Except.ok.inj h
  rfl

namespace Clause

variable {clause : Clause α} {r r' : Rule α}

/-- **Clauses.** What is said about a rule extends it. -/
theorem apply_extends (h : clause.apply r = .ok r') : r'.Extends r := by
  cases clause with
  | pattern elements action =>
    obtain ⟨q, -, h⟩ := bind_eq_ok.mp h
    obtain rfl := Except.ok.inj h
    exact Rule.extends_addPattern q r
  | optional | repeatable =>
    obtain rfl := Except.ok.inj h
    exact ⟨rfl, List.prefix_rfl⟩
  | remark remark => exact Rule.extends_of_undocumented (Grammar.documents_remark remark r r' h)

/-- What all actions of a rule have in common stays so, if the action that comes in has
it as well. -/
theorem forall_apply {trait : Option α → Prop}
    (h : clause.apply r = .ok r') (hr : ∀ q ∈ r.patterns, trait q.action)
    (hclause : trait clause.action) : ∀ q ∈ r'.patterns, trait q.action := by
  cases clause with
  | pattern elements action =>
    obtain ⟨new, hnew, h⟩ := bind_eq_ok.mp h
    obtain rfl := Except.ok.inj h
    intro q hq
    rcases List.mem_append.mp hq with hq | hq
    · exact hr q hq
    · obtain rfl := List.mem_singleton.mp hq
      exact Pattern.action_of_ofElements hnew ▸ hclause
  | optional | repeatable =>
    obtain rfl := Except.ok.inj h
    exact hr
  | remark remark =>
    exact Grammar.forall_of_undocumented (Grammar.documents_remark remark r r' h) hr

end Clause

end GrammarEngine
