import GrammarEngine.Proofs.Grammar.Clauses
import GrammarEngine.Proofs.Parser.Tables

/-!
# What actions leave of a parser

An action may say more about rules, take rules out, declare them anew and bring the table up to
date, all while the parse goes on. But what a state stands for never changes: a rule that was
declared is known for good under its identity, also when another one has taken its name, and
patterns are only added behind those it has. A pattern may be documented in another way, but its
elements and its action stay (`Retains`). The frames of the parse keep their states and actions;
their sites may be renewed, in a table of a grammar whose patterns are known as well (`KnowsSite`).

Main results:

* `perform_grows` — whatever an action does, patterns, table and frames stay known.
* `KnowsSite.exists_pattern` — the elements that a known state shows are those of its pattern.
-/

namespace GrammarEngine

namespace Parser

open Grammar

variable {σ : Type} {p p' p'' : Parser σ}

-- ---------------------------------------------------------------------------
-- Rules that stay known
-- ---------------------------------------------------------------------------

/-- A rule is found under its own identity. -/
theorem id_of_rule? {id : RuleId} {r : Rule (Action σ)} (h : p.rule? id = some r) : r.id = id := by
  unfold rule? at h
  cases hbyId : p.grammar.byId? id with
  | some s =>
    rw [hbyId] at h
    obtain rfl := Option.some.inj h
    simpa using List.find?_some hbyId
  | none =>
    rw [hbyId] at h
    simpa using List.find?_some h

/-- A rule found by its identity is one of the grammar, or was one of it once. -/
theorem mem_of_rule? {id : RuleId} {r : Rule (Action σ)} (h : p.rule? id = some r) :
    r ∈ p.grammar.rules ++ p.former := by
  unfold rule? at h
  cases hbyId : p.grammar.byId? id with
  | some s =>
    rw [hbyId] at h
    obtain rfl := Option.some.inj h
    exact List.mem_append_left _ (List.mem_of_find?_eq_some hbyId)
  | none =>
    rw [hbyId] at h
    exact List.mem_append_right _ (List.mem_of_find?_eq_some h)

/-- Only identities that were given out are known. -/
theorem stamp_lt_of_rule? {id : RuleId} {r : Rule (Action σ)} (h : p.rule? id = some r) :
    id.stamp < p.declared := by
  rw [← id_of_rule? h]
  exact p.stamped r (mem_of_rule? h)

/-- A rule of the grammar is known. -/
theorem rule?_of_mem {r : Rule (Action σ)} (hr : r ∈ p.grammar.rules) : p.rule? r.id = some r := by
  unfold rule?
  rw [byId?_of_mem hr]
  rfl

/-- A rule is found by its identity where the grammar has it. -/
theorem byId?_eq_some_iff {α : Type} {g : Grammar α} {id : RuleId} {r : Rule α} :
    g.byId? id = some r ↔ r ∈ g.rules ∧ r.id = id := by
  constructor
  · intro h
    exact ⟨List.mem_of_find?_eq_some h, by simpa using List.find?_some h⟩
  · rintro ⟨hr, rfl⟩
    exact byId?_of_mem hr

/-- Putting a rule in the place of one with its identity changes nothing about the others. -/
theorem byId?_put {α : Type} {g : Grammar α} {r s : Rule α} (hs : g.byId? r.id = some s)
    (id : RuleId) : (g.put r).byId? id = if id = r.id then some r else g.byId? id := by
  obtain ⟨hmem, hid⟩ := byId?_eq_some_iff.mp hs
  split
  · next heq => exact byId?_eq_some_iff.mpr ⟨mem_put_iff.mpr (.inl rfl), heq.symm⟩
  · next hne =>
    refine Option.ext fun t => ?_
    rw [byId?_eq_some_iff, byId?_eq_some_iff, mem_put_iff]
    constructor
    · rintro ⟨rfl | ⟨ht, -⟩, htid⟩
      · exact absurd htid.symm hne
      · exact ⟨ht, htid⟩
    · rintro ⟨ht, htid⟩
      refine ⟨.inr ⟨ht, fun hname => hne ?_⟩, htid⟩
      rw [← htid, eq_of_name_eq ht hmem (hname.trans (congrArg RuleId.name hid).symm), hid]

/-- Taking a rule out by its name leaves those of other names. -/
theorem byId?_erase {α : Type} {g : Grammar α} {name : String} {id : RuleId} :
    (g.erase name).byId? id = if id.name = name then none else g.byId? id := by
  split
  · next hname =>
    refine List.find?_eq_none.mpr fun t ht htid => ?_
    obtain ⟨-, hne⟩ := List.mem_filter.mp ht
    have htid : t.id = id := by simpa using htid
    have hne : t.name ≠ name := by simpa using hne
    exact hne ((congrArg RuleId.name htid).trans hname)
  · next hname =>
    refine Option.ext fun t => ?_
    rw [byId?_eq_some_iff, byId?_eq_some_iff]
    refine and_congr_left fun htid => ?_
    have hne : t.name ≠ name := fun h => hname ((congrArg RuleId.name htid).symm.trans h)
    rw [erase, List.mem_filter]
    exact and_iff_left (by simpa using hne)

/-- The rule of the grammar is the one known, whatever was there before. -/
theorem rule?_eq_of_byId? {id : RuleId} {r : Rule (Action σ)} (h : p.grammar.byId? id = some r) :
    p.rule? id = some r := by
  unfold rule?
  rw [h]
  rfl

/-- Rules taken out are looked for only where the grammar has none. -/
theorem rule?_eq_former {id : RuleId} (h : p.grammar.byId? id = none) :
    p.rule? id = p.former.find? (·.id == id) := by
  unfold rule?
  rw [h]
  rfl

/-- A changed rule is put back where it was, and nowhere else. -/
theorem rule?_putBack {r s : Rule (Action σ)} (hs : p.rule? r.id = some s) (id : RuleId) :
    (p.putBack r).rule? id = if id = r.id then some r else p.rule? id := by
  unfold putBack
  split
  · next hsome =>
    obtain ⟨t, ht⟩ := Option.isSome_iff_exists.mp hsome
    have hput := byId?_put ht id
    unfold rule?
    dsimp only
    rw [hput]
    split <;> rfl
  · next hnone =>
    rw [Bool.not_eq_true, Option.isSome_eq_false_iff, Option.isNone_iff_eq_none] at hnone
    rw [rule?_eq_former hnone] at hs
    unfold rule?
    dsimp only
    rw [List.find?_map]
    split
    · next heq =>
      subst heq
      have hfun : ((fun t : Rule (Action σ) => t.id == r.id) ∘ fun other =>
          if other.id = r.id then r else other) = fun t => t.id == r.id := by
        funext t
        by_cases ht : t.id = r.id <;> simp [ht]
      have hid : s.id = r.id := by simpa using List.find?_some hs
      rw [hfun, hs, hnone]
      simp [hid]
    · next hne =>
      have hfun : ((fun t : Rule (Action σ) => t.id == id) ∘ fun other =>
          if other.id = r.id then r else other) = fun t => t.id == id := by
        funext t
        by_cases ht : t.id = r.id
        · simp [ht]
        · simp [ht]
      rw [hfun]
      cases hfind : p.former.find? (fun t => t.id == id) with
      | none => rfl
      | some t =>
        have htid : t.id = id := by simpa using List.find?_some hfind
        rw [Option.map_some, if_neg (by rw [htid]; exact hne)]

/-- A rule that is taken out stays known. -/
theorem rule?_takeOut {name : String} {id : RuleId} {r s : Rule (Action σ)}
    (hs : p.grammar.find? name = some s) (h : p.rule? id = some r) :
    (p.takeOut name).rule? id = some r := by
  have hmem := mem_of_find?_eq_some hs
  have hname := name_of_find?_eq_some hs
  have hbyId : (p.takeOut name).grammar.byId? id = if id.name = name then none else
      p.grammar.byId? id :=
    byId?_erase
  have hformer : (p.takeOut name).former = s :: p.former := by
    show (p.grammar.find? name).toList ++ p.former = s :: p.former
    rw [hs]
    rfl
  cases hold : p.grammar.byId? id with
  | some t =>
    rw [rule?_eq_of_byId? hold] at h
    obtain rfl := Option.some.inj h
    obtain ⟨ht, htid⟩ := byId?_eq_some_iff.mp hold
    by_cases heq : id.name = name
    · -- the rule itself was taken out
      rw [if_pos heq] at hbyId
      have hsame : s = t :=
        eq_of_name_eq hmem ht (hname.trans (heq.symm.trans (congrArg RuleId.name htid.symm)))
      rw [rule?_eq_former hbyId, hformer, hsame, List.find?_cons_of_pos (by simpa using htid)]
    · rw [if_neg heq, hold] at hbyId
      exact rule?_eq_of_byId? hbyId
  | none =>
    rw [rule?_eq_former hold] at h
    rw [hold, ite_self] at hbyId
    have hne : s.id ≠ id := fun heq => by
      have := byId?_eq_some_iff.mpr ⟨hmem, heq⟩
      rw [hold] at this
      cases this
    rw [rule?_eq_former hbyId, hformer, List.find?_cons_of_neg (by simpa using hne), h]

/-- A rule that is declared under a free name is different from all that are known. -/
theorem rule?_putNew {name : String} {id : RuleId} {r : Rule (Action σ)}
    (hfree : p.grammar.find? name = none) (h : p.rule? id = some r) :
    (p.putNew name).rule? id = some r := by
  have hlt := stamp_lt_of_rule? h
  have hformer : (p.putNew name).former = p.former := by
    show (p.grammar.find? name).toList ++ p.former = p.former
    rw [hfree]
    rfl
  have hbyId : (p.putNew name).grammar.byId? id = p.grammar.byId? id := by
    refine Option.ext fun t => ?_
    have hmem : t ∈ (p.putNew name).grammar.rules ↔
        t = { id := ⟨name, p.declared⟩ } ∨ (t ∈ p.grammar.rules ∧ t.name ≠ name) := mem_put_iff
    rw [byId?_eq_some_iff, byId?_eq_some_iff, hmem]
    constructor
    · rintro ⟨rfl | ⟨ht, -⟩, htid⟩
      · rw [← htid] at hlt
        exact absurd hlt (Nat.lt_irrefl _)
      · exact ⟨ht, htid⟩
    · rintro ⟨ht, htid⟩
      refine ⟨.inr ⟨ht, fun heq => ?_⟩, htid⟩
      rw [← heq, find?_of_mem ht] at hfree
      cases hfree
  unfold rule? at h ⊢
  rw [hbyId, hformer]
  exact h

-- ---------------------------------------------------------------------------
-- Patterns that stay known
-- ---------------------------------------------------------------------------

/-- The pattern of a state, without its documentation. -/
def bare? (p : Parser σ) (k : Key) : Option (Pattern (Action σ)) :=
  (p.patternOf? k).map Pattern.undocumented

/-- Every pattern that was known still is, in the same place. -/
def Retains (p p' : Parser σ) : Prop :=
  ∀ k q, p.bare? k = some q → p'.bare? k = some q

theorem Retains.refl (p : Parser σ) : Retains p p := fun _ _ h => h

theorem Retains.trans (h : Retains p p') (h' : Retains p' p'') : Retains p p'' :=
  fun k q hq => h' k q (h k q hq)

/-- Patterns stay known where none changes. -/
theorem Retains.of_patternOf? (h : ∀ k, p'.patternOf? k = p.patternOf? k) : Retains p p' := by
  intro k q hq
  unfold bare? at hq ⊢
  rw [h k]
  exact hq

/-- A pattern that is retained may be documented in another way. -/
theorem Retains.exists_pattern (h : Retains p p') {k : Key} {q : Pattern (Action σ)}
    (hq : p.patternOf? k = some q) :
    ∃ q', p'.patternOf? k = some q' ∧ q'.undocumented = q.undocumented :=
  Option.map_eq_some_iff.mp (h k _ (Option.map_eq_some_iff.mpr ⟨q, hq, rfl⟩))

/-- A pattern is found by the rule of its state and its number there. -/
theorem patternOf?_eq_some_iff {k : Key} {q : Pattern (Action σ)} :
    p.patternOf? k = some q ↔ ∃ r pattern, p.rule? k.rule = some r ∧ k.pattern = some pattern ∧
      r.patterns[pattern]? = some q := by
  unfold patternOf?
  cases hr : p.rule? k.rule with
  | none => simp
  | some r =>
    cases hk : k.pattern with
    | none => simp
    | some pattern => simp

/-- The pattern of a state is one of a rule that is known. -/
theorem mem_of_patternOf? {k : Key} {q : Pattern (Action σ)} (h : p.patternOf? k = some q) :
    ∃ r ∈ p.grammar.rules ++ p.former, q ∈ r.patterns := by
  obtain ⟨r, pattern, hr, -, hq⟩ := patternOf?_eq_some_iff.mp h
  exact ⟨r, mem_of_rule? hr, List.mem_of_getElem? hq⟩

/-- It is enough that each rule is there, or one that extends it. -/
theorem Retains.of_rule? (h : ∀ id r, p.rule? id = some r →
    ∃ r', p'.rule? id = some r' ∧ r'.Extends r) : Retains p p' := by
  intro k bare hbare
  obtain ⟨q, hq, rfl⟩ := Option.map_eq_some_iff.mp hbare
  obtain ⟨r, pattern, hr, hk, hq⟩ := patternOf?_eq_some_iff.mp hq
  obtain ⟨r', hr', hextends⟩ := h k.rule r hr
  obtain ⟨q', hq', hsame⟩ := hextends.getElem? hq
  exact Option.map_eq_some_iff.mpr ⟨q',
    patternOf?_eq_some_iff.mpr ⟨r', pattern, hr', hk, hq'⟩, hsame⟩

/-- The patterns of a grammar are known. -/
def KnowsGrammar (p : Parser σ) (g : Grammar (Action σ)) : Prop :=
  ∀ r ∈ g.rules, ∀ pattern q, r.patterns[pattern]? = some q →
    ∀ index, p.bare? ⟨r.id, some pattern, index⟩ = some q.undocumented

/-- A table belongs to a grammar whose patterns are known. It need not be the grammar of
the parser. -/
def KnowsTable (p : Parser σ) (table : Table) : Prop := ∃ g, TableOf g table ∧ p.KnowsGrammar g

/-- A site is one of a table that is known. -/
structure KnowsSite (p : Parser σ) (site : Site) : Prop where
  known : p.KnowsTable site.table
  sits : Sits site.table site

/-- A parser knows its own grammar. -/
theorem knowsGrammar_self (p : Parser σ) : p.KnowsGrammar p.grammar :=
  fun _ hr _ q hq _ => Option.map_eq_some_iff.mpr ⟨q, patternOf?_of_mem rfl hr hq, rfl⟩

/-- A known table stays known as long as patterns do. -/
theorem KnowsTable.retains {table : Table} (h : p.KnowsTable table) (hretains : Retains p p') :
    p'.KnowsTable table := by
  obtain ⟨g, htable, hg⟩ := h
  exact ⟨g, htable, fun r hr pattern q hq index => hretains _ _ (hg r hr pattern q hq index)⟩

/-- So does a site. -/
theorem KnowsSite.retains {site : Site} (h : p.KnowsSite site) (hretains : Retains p p') :
    p'.KnowsSite site := ⟨h.known.retains hretains, h.sits⟩

/-- A known state that is not an entry shows the elements of its pattern. -/
theorem KnowsSite.exists_pattern {site : Site} (h : p.KnowsSite site)
    (hkey : site.state.key.pattern.isSome) :
    ∃ q, p.bare? site.state.key = some q ∧ site.state.tokens = q.tokens := by
  obtain ⟨g, htable, hg⟩ := h.known
  have hplace := htable.place _ h.sits.mem
  generalize hk : site.state.key = k at hplace hkey ⊢
  cases hplace with
  | entry => cases hkey
  | inside hr hp _ =>
    have htokens := htable.tokens _ h.sits.mem _ hr _ _ (by rw [hk]) (by rw [hk]) hp
    exact ⟨_, hg _ hr _ _ hp _, htokens⟩

-- ---------------------------------------------------------------------------
-- What actions do
-- ---------------------------------------------------------------------------

/-- A frame keeps its state and its action; its site may be renewed. -/
structure FrameKept (p p' : Parser σ) (f f' : Frame σ) : Prop where
  key : f'.key = f.key
  action : f'.action = f.action
  site : p.KnowsSite f.site → p'.KnowsSite f'.site

/-- What any action leaves: all patterns are still known, the table belongs to a known grammar if it
did, and the frames are the same. -/
structure Grows (p p' : Parser σ) : Prop where
  retains : Retains p p'
  table : p.KnowsTable p.table → p'.KnowsTable p'.table
  frames : List.Forall₂ (FrameKept p p') (p.stack.getD []) (p'.stack.getD [])

namespace Grows

/-- An operation that leaves stack and table alone only has to retain the patterns. -/
theorem of_retains (h : Retains p p') (htable : p'.table = p.table) (hstack : p'.stack = p.stack) :
    Grows p p' where
  retains := h
  table hknown := by
    rw [htable]
    exact hknown.retains h
  frames := by
    rw [hstack]
    exact List.forall₂_same.mpr fun f _ => ⟨rfl, rfl, fun hsite => hsite.retains h⟩

theorem refl (p : Parser σ) : Grows p p := of_retains (.refl p) rfl rfl

/-- What one operation leaves of the frames, another one leaves of them as well. -/
theorem frames_trans {frames frames' frames'' : List (Frame σ)}
    (h : List.Forall₂ (FrameKept p p') frames frames')
    (h' : List.Forall₂ (FrameKept p' p'') frames' frames'') :
    List.Forall₂ (FrameKept p p'') frames frames'' := by
  induction h generalizing frames'' with
  | nil =>
    cases h'
    exact .nil
  | cons hkept _ ih =>
    cases h' with
    | cons hkept' h' =>
      refine .cons ⟨hkept'.key.trans hkept.key, hkept'.action.trans hkept.action, ?_⟩ (ih h')
      exact fun hsite => hkept'.site (hkept.site hsite)

theorem trans (h : Grows p p') (h' : Grows p' p'') : Grows p p'' where
  retains := h.retains.trans h'.retains
  table hknown := h'.table (h.table hknown)
  frames := frames_trans h.frames h'.frames

/-- What is not looked at may change. -/
theorem of_patternOf? (hpattern : ∀ k, p'.patternOf? k = p.patternOf? k)
    (htable : p'.table = p.table) (hstack : p'.stack = p.stack) : Grows p p' :=
  of_retains (.of_patternOf? hpattern) htable hstack

/-- A rule is put back with more that was said about it. -/
theorem putBack {r s : Rule (Action σ)} (hs : p.rule? s.id = some s) (h : r.Extends s) :
    Grows p (p.putBack r) := by
  have hr : p.rule? r.id = some s := h.id_eq ▸ hs
  refine of_retains (.of_rule? fun id t ht => ?_) ?_ ?_
  · rw [rule?_putBack hr]
    split
    · next heq =>
      rw [heq, hr] at ht
      obtain rfl := Option.some.inj ht
      exact ⟨r, rfl, h⟩
    · exact ⟨t, ht, .refl t⟩
  · unfold Parser.putBack
    split <;> rfl
  · unfold Parser.putBack
    split <;> rfl

end Grows

/-- A rule is looked up without a change. -/
theorem named_returns {name : String} {r : Rule (Action σ)} (h : (named name).Returns p r p') :
    p.grammar.find? name = some r ∧ p = p' := by
  unfold named at h
  obtain ⟨q, p₀, hget, h⟩ := Run.returns_bind.mp h
  obtain ⟨rfl, rfl⟩ := Run.returns_get.mp hget
  exact Run.returns_orFail.mp h

/-- The rule that is being declared is a known one. -/
theorem currentRule_returns {r : Rule (Action σ)} (h : currentRule.Returns p r p') :
    p.rule? r.id = some r ∧ p = p' := by
  unfold currentRule at h
  obtain ⟨q, p₀, hget, h⟩ := Run.returns_bind.mp h
  obtain ⟨rfl, rfl⟩ := Run.returns_get.mp hget
  split at h
  · next s hs =>
    obtain ⟨rfl, rfl⟩ := Run.returns_pure.mp h
    obtain ⟨id, -, hid⟩ := Option.bind_eq_some_iff.mp hs
    rw [id_of_rule? hid]
    exact ⟨hid, rfl⟩
  · exact absurd h Run.not_returns_refuse

/-- Saying more about a rule puts it back extended. -/
theorem amend_returns {name : String} {clause : Clause (Action σ)} {u : Unit}
    (h : (amend name clause).Returns p u p') :
    ∃ r r', p.rule? r.id = some r ∧ clause.apply r = .ok r' ∧ p' = p.putBack r' := by
  unfold amend at h
  obtain ⟨r, p₀, hnamed, h⟩ := Run.returns_bind.mp h
  obtain ⟨hr, rfl⟩ := named_returns hnamed
  obtain ⟨r', p₀, hr', h⟩ := Run.returns_bind.mp h
  obtain ⟨happly, rfl⟩ := Run.returns_ofExcept.mp hr'
  exact ⟨r, r', rule?_of_mem (mem_of_find?_eq_some hr), happly, (Run.returns_modify.mp h).symm⟩

/-- A new rule takes a name that is free, and an identity that was not given out before. -/
theorem newRule_returns {name : String} {u : Unit} (h : (newRule name).Returns p u p') :
    p.grammar.find? name = none ∧
      p' = { p.putNew name with current := some ⟨name, p.declared⟩, isStale := true } := by
  unfold newRule at h
  obtain ⟨q, p₀, hget, h⟩ := Run.returns_bind.mp h
  obtain ⟨rfl, rfl⟩ := Run.returns_get.mp hget
  split at h
  · exact absurd h Run.not_returns_refuse
  · next hfree => exact ⟨hfree, (Run.returns_set.mp h).symm⟩

/-- The rule being declared is put back changed, if the change is not refused. -/
theorem changeCurrent_returns {f : Rule (Action σ) → Except Fault (Rule (Action σ))} {u : Unit}
    (h : (changeCurrent f).Returns p u p') :
    ∃ r r', p.rule? r.id = some r ∧ f r = .ok r' ∧ p' = p.putBack r' := by
  unfold changeCurrent at h
  obtain ⟨r, p₀, hcurrent, h⟩ := Run.returns_bind.mp h
  obtain ⟨hr, rfl⟩ := currentRule_returns hcurrent
  obtain ⟨r', p₀, hchange, h⟩ := Run.returns_bind.mp h
  obtain ⟨hr', rfl⟩ := Run.returns_ofExcept.mp hchange
  exact ⟨r, r', hr, hr', (Run.returns_modify.mp h).symm⟩

/-- A change that cannot fail may call for new tables. -/
theorem reshapeCurrent_returns {f : Rule (Action σ) → Rule (Action σ)} {u : Unit}
    (h : (reshapeCurrent f).Returns p u p') :
    ∃ r, p.rule? r.id = some r ∧ p' = { p.putBack (f r) with isStale := true } := by
  unfold reshapeCurrent at h
  obtain ⟨_, p₁, hchange, hstale⟩ := Run.returns_bind.mp h
  obtain ⟨r, r', hr, hf, rfl⟩ := changeCurrent_returns hchange
  obtain rfl := Except.ok.inj hf
  exact ⟨r, hr, (Run.returns_modify.mp hstale).symm⟩

/-- What is said goes to one rule. The table may have to be told. -/
theorem declare_returns {clause : Clause (Action σ)} {u : Unit}
    (h : (declare clause).Returns p u p') :
    ∃ r r' stale, p.rule? r.id = some r ∧ clause.apply r = .ok r' ∧
      p' = { p.putBack r' with isStale := stale } := by
  cases clause with
  | pattern elements action =>
    obtain ⟨text, h⟩ := Run.returns_discard.mp h
    unfold pattern at h
    obtain ⟨new, p₀, hread, h⟩ := Run.returns_bind.mp h
    obtain ⟨hnew, rfl⟩ := Run.returns_ofExcept.mp hread
    obtain ⟨_, p₁, hreshape, h⟩ := Run.returns_bind.mp h
    obtain ⟨-, rfl⟩ := Run.returns_pure.mp h
    obtain ⟨r, hr, hp₁⟩ := reshapeCurrent_returns hreshape
    exact ⟨r, r.addPattern new, true, hr, bind_eq_ok.mpr ⟨new, hnew, rfl⟩, hp₁⟩
  | optional | repeatable =>
    obtain ⟨r, hr, hp'⟩ := reshapeCurrent_returns h
    exact ⟨r, _, true, hr, rfl, hp'⟩
  | remark remark =>
    obtain ⟨r, r', hr, hr', rfl⟩ := changeCurrent_returns h
    exact ⟨r, r', _, hr, hr', rfl⟩

/-- Declaring a rule is a row of steps: the rule, all that is said about it, and the way back to the
current rule. -/
theorem declareRule_steps {Steps : Parser σ → Parser σ → Prop} (hrefl : ∀ p, Steps p p)
    (htrans : ∀ {p p' p''}, Steps p p' → Steps p' p'' → Steps p p'')
    (hrule : ∀ {name p p' u}, (newRule name).Returns p u p' → Steps p p')
    (hclause : ∀ {clause p p' u}, (declare clause).Returns p u p' → Steps p p')
    (hcurrent : ∀ (p : Parser σ) current, Steps p { p with current := current })
    {name : String} {clauses : List (Clause (Action σ))} {u : Unit}
    (h : (declareRule name clauses).Returns p u p') : Steps p p' := by
  have hclauses {p p' : Parser σ} {clauses : List (Clause (Action σ))} {u : Unit}
      (h : (clauses.forM declare).Returns p u p') : Steps p p' := by
    induction clauses generalizing p with
    | nil =>
      obtain ⟨-, rfl⟩ := Run.returns_pure.mp h
      exact hrefl p
    | cons clause rest ih =>
      obtain ⟨_, p₁, hfirst, h⟩ := Run.returns_bind.mp h
      exact htrans (hclause hfirst) (ih h)
  unfold declareRule withRule at h
  obtain ⟨q, p₀, hget, h⟩ := Run.returns_bind.mp h
  obtain ⟨rfl, rfl⟩ := Run.returns_get.mp hget
  obtain ⟨p₁, hdeclare, rfl⟩ := Run.returns_thenAlways.mp h
  obtain ⟨_, p₂, hnew, hdeclared⟩ := Run.returns_bind.mp hdeclare
  exact htrans (htrans (hrule hnew) (hclauses hdeclared)) (hcurrent _ _)

/-- So saying more about a rule lets a parser grow. -/
theorem amend_grows {name : String} {clause : Clause (Action σ)} {u : Unit}
    (h : (amend name clause).Returns p u p') : Grows p p' := by
  obtain ⟨r, r', hr, happly, rfl⟩ := amend_returns h
  exact .putBack hr (Clause.apply_extends happly)

/-- A rule that was taken out is known as before. -/
theorem dropRule_grows {name : String} {u : Unit}
    (h : (dropRule name).Returns p u p') : Grows p p' := by
  unfold dropRule at h
  obtain ⟨_, p₀, hdiscard, h⟩ := Run.returns_bind.mp h
  obtain ⟨r, hnamed⟩ := Run.returns_discard.mp hdiscard
  obtain ⟨hr, rfl⟩ := named_returns hnamed
  obtain rfl := Run.returns_modify.mp h
  refine .of_retains (.of_rule? fun id t ht => ⟨t, ?_, .refl t⟩) rfl rfl
  exact rule?_takeOut hr ht

/-- A new rule does not touch those that are known. -/
theorem newRule_grows {name : String} {u : Unit}
    (h : (newRule name).Returns p u p') : Grows p p' := by
  obtain ⟨hfree, rfl⟩ := newRule_returns h
  refine .of_retains (.of_rule? fun id t ht => ⟨t, ?_, .refl t⟩) rfl rfl
  exact rule?_putNew hfree ht

/-- Saying more about the rule being declared only adds to what is known. -/
theorem declare_grows {clause : Clause (Action σ)} {u : Unit}
    (h : (declare clause).Returns p u p') : Grows p p' := by
  obtain ⟨r, r', stale, hr, happly, rfl⟩ := declare_returns h
  have hgrows : Grows p (p.putBack r') := .putBack hr (Clause.apply_extends happly)
  exact hgrows.trans (.of_patternOf? (fun _ => rfl) rfl rfl)

/-- And so does declaring a rule with all that is said about it. -/
theorem declareRule_grows {name : String} {clauses : List (Clause (Action σ))} {u : Unit}
    (h : (declareRule name clauses).Returns p u p') : Grows p p' :=
  declareRule_steps .refl Grows.trans newRule_grows declare_grows
    (fun _ _ => .of_patternOf? (fun _ => rfl) rfl rfl) h

/-- The table is now that of the grammar as it is. -/
theorem updateTable_knows {u : Unit} (h : updateTable.Returns p u p') : p'.KnowsTable p'.table := by
  obtain ⟨-, htable, ⟨memo, stack, hp'⟩, -⟩ := updateTable_returns h
  refine ⟨p.grammar, htable, ?_⟩
  have hgrammar : p'.grammar = p.grammar := by rw [hp']
  rw [← hgrammar]
  exact p'.knowsGrammar_self

/-- The frames have moved to the new table. -/
theorem updateTable_grows {u : Unit} (h : updateTable.Returns p u p') : Grows p p' := by
  have hknown := updateTable_knows h
  obtain ⟨-, -, ⟨memo, stack, hp'⟩, hmoved⟩ := updateTable_returns h
  have hpattern : ∀ k, p'.patternOf? k = p.patternOf? k := fun k => by rw [hp']; rfl
  refine ⟨.of_patternOf? hpattern, fun _ => hknown, ?_⟩
  rcases hmoved with ⟨hnone, hnone'⟩ | ⟨fs, fs', hfs, hfs', hmoved⟩
  · rw [hnone, hnone']
    exact .nil
  · rw [hfs, hfs']
    refine hmoved.imp fun f f' hmove => ?_
    obtain ⟨state, hfind, rfl⟩ := hmove
    have hkey := Table.key_of_find?_eq_some hfind
    exact ⟨hkey, rfl, fun _ => ⟨hknown, rfl, by rw [hkey]; exact hfind⟩⟩

/-- Work on the source is no matter of the grammar. -/
theorem onSource_grows {work : Run σ Value} {v : Value}
    (h : (onSource work).Returns p v p') : Grows p p' := by
  obtain ⟨s, s', -, -, rfl⟩ := onSource_returns.mp h
  exact .of_patternOf? (fun _ => rfl) rfl rfl

section Actions

variable [TokenSource σ]

/-- What shifting keeps is known as before. -/
theorem Grows.of_kept (h : Kept p p') (hstack : p'.stack = p.stack) : Grows p p' :=
  .of_patternOf? h.patternOf? h.table hstack

/-- **What an action leaves.** Whatever it does, what was known stays known, and the frames
are the same. -/
theorem perform_grows {script : Script σ} {v : Value}
    (h : (perform script).Returns p v p') : Grows p p' := by
  induction script using perform.induct generalizing p with
  | case1 work rest ih =>
    obtain ⟨v', p₁, hwork, h⟩ := Run.returns_bind.mp h
    exact (onSource_grows hwork).trans (ih v' h)
  | case2 rest ih =>
    obtain ⟨q, p₁, hget, h⟩ := Run.returns_bind.mp h
    obtain ⟨rfl, rfl⟩ := Run.returns_get.mp hget
    exact ih p h
  | case3 rest ih =>
    obtain ⟨q, p₁, hget, h⟩ := Run.returns_bind.mp h
    obtain ⟨rfl, rfl⟩ := Run.returns_get.mp hget
    exact ih p h
  | case4 id text position data => exact absurd h not_returns_error
  | case5 id text position data rest ih =>
    obtain ⟨_, p₁, hreport, h⟩ := Run.returns_bind.mp h
    obtain ⟨hkept, hstack⟩ := warning_returns hreport
    exact (Grows.of_kept hkept hstack).trans (ih h)
  | case6 kinds rest ih =>
    obtain ⟨_, p₁, hlimit, h⟩ := Run.returns_bind.mp h
    obtain rfl := Run.returns_modify.mp hlimit
    have hgrows : Grows p (p.limit kinds) := .of_patternOf? (fun _ => rfl) rfl rfl
    exact hgrows.trans (ih h)
  | case7 rule clause rest ih =>
    obtain ⟨_, p₁, hamend, h⟩ := Run.returns_bind.mp h
    exact (amend_grows hamend).trans (ih h)
  | case8 rule rest ih =>
    obtain ⟨_, p₁, hdrop, h⟩ := Run.returns_bind.mp h
    exact (dropRule_grows hdrop).trans (ih h)
  | case9 rule clauses rest ih =>
    obtain ⟨_, p₁, hdeclare, h⟩ := Run.returns_bind.mp h
    exact (declareRule_grows hdeclare).trans (ih h)
  | case10 rest ih =>
    obtain ⟨_, p₁, hupdate, h⟩ := Run.returns_bind.mp h
    exact (updateTable_grows hupdate).trans (ih h)
  | case11 fault => exact absurd h Run.not_returns_fail
  | case12 value =>
    obtain ⟨-, rfl⟩ := Run.returns_pure.mp h
    exact .refl p

end Actions

end Parser

end GrammarEngine
