import GrammarEngine.Proofs.Grammar.Exactness
import GrammarEngine.Proofs.Parser.Steps

/-!
# Bringing the table up to date

If the table can be brought up to date, every reference of the grammar names a rule, and the
table holds the states of the grammar. Every frame of a parse under way has moved to the state of
the same identity.

Main results:

* `updateTable_returns` — what is known after the table was brought up to date.
-/

namespace GrammarEngine

namespace Parser

variable {σ : Type}

-- ---------------------------------------------------------------------------
-- The states of a table
-- ---------------------------------------------------------------------------

/-- A site of a table, and the only one with its key. -/
structure Sits (table : Table) (site : Site) : Prop where
  table_eq : site.table = table
  found : table.find? site.state.key = some site.state

theorem Sits.mem {table : Table} {site : Site} (h : Sits table site) : site.state ∈ table :=
  List.mem_of_find?_eq_some h.found

theorem sits_of_follow? {table : Table} {site next : Site} {k : Key} (htable : site.table = table)
    (h : site.follow? k = some next) : Sits table next ∧ next.state.key = k := by
  unfold Site.follow? at h
  obtain ⟨state, hfind, rfl⟩ := Option.map_eq_some_iff.mp h
  have hkey := Table.key_of_find?_eq_some hfind
  rw [htable] at hfind
  exact ⟨⟨htable, by rw [hkey]; exact hfind⟩, hkey⟩

theorem patternOf?_of_mem {g : Grammar (Action σ)} {p : Parser σ} (hp : p.grammar = g)
    {r : Rule (Action σ)} (hr : r ∈ g.rules) {pattern index : Nat} {q : Pattern (Action σ)}
    (hq : r.patterns[pattern]? = some q) : p.patternOf? ⟨r.id, some pattern, index⟩ = some q := by
  unfold patternOf? rule?
  subst hp
  rw [Grammar.byId?_of_mem hr]
  exact hq

/-- A rule of the grammar repeats if it is marked so. -/
theorem repeats_of_mem {g : Grammar (Action σ)} {p : Parser σ} (hp : p.grammar = g)
    {r : Rule (Action σ)} (hr : r ∈ g.rules) (recorded : Bool) :
    p.repeats r.id recorded = r.repeatable := by
  unfold repeats rule?
  subst hp
  rw [Grammar.byId?_of_mem hr]
  rfl

-- ---------------------------------------------------------------------------
-- A table that was made anew
-- ---------------------------------------------------------------------------

theorem forM_eq_ok {κ ε : Type} {f : κ → Except ε Unit} {items : List κ}
    (h : items.forM f = .ok ()) : ∀ x ∈ items, f x = .ok () := by
  induction items with
  | nil => exact fun x hx => nomatch hx
  | cons x rest ih =>
    obtain ⟨_, hx, hrest⟩ := bind_eq_ok.mp h
    intro y hy
    rcases List.mem_cons.mp hy with rfl | hy
    · exact hx
    · exact ih hrest y hy

/-- A grammar all of whose rules pass the check is closed. -/
theorem closed_of_checked {p : Parser σ} (h : p.grammar.rules.forM p.checkRule = .ok ()) :
    p.grammar.Closed := by
  intro r hr pattern hpattern d hd hterminal
  have hrule := forM_eq_ok h r hr
  unfold checkRule at hrule
  split at hrule
  · cases hrule
  · have helement := forM_eq_ok (forM_eq_ok hrule pattern hpattern) d hd
    have hkind : d.kind = .reference := by
      simpa [Descriptor.isTerminal] using hterminal
    unfold checkElement at helement
    simp only [hkind] at helement
    split at helement
    · next hsome => exact Option.isSome_iff_exists.mp hsome
    · cases helement

/-- A frame has moved to the state of the same identity in a table. -/
def Moved (table : Table) (f f' : Frame σ) : Prop :=
  ∃ state, table.find? f.key = some state ∧ f' = { f with site := ⟨table, state⟩ }

/-- If no frame is lost, all have moved. -/
theorem moved_of_restore {table : Table} {frames : List (Frame σ)}
    (h : (restore table frames).2 = none) :
    List.Forall₂ (Moved table) frames (restore table frames).1 := by
  induction frames with
  | nil => exact .nil
  | cons f rest ih =>
    unfold restore at h ⊢
    cases hfind : table.find? f.key with
    | none =>
      rw [hfind] at h
      cases h
    | some state =>
      simp only [hfind] at h ⊢
      exact .cons ⟨state, hfind, rfl⟩ (ih h)

theorem compileTable_returns {p p' : Parser σ} {table : Table}
    (h : compileTable.Returns p table p') :
    ∃ memo, (p.grammar.compile.run p.memo).result = .ok table ∧ p' = { p with memo := memo } := by
  unfold compileTable at h
  obtain ⟨q, p₁, hget, h⟩ := Run.returns_bind.mp h
  obtain ⟨rfl, rfl⟩ := Run.returns_get.mp hget
  obtain ⟨memo, ⟨trace, hrun⟩, rfl⟩ := Run.returns_zoom.mp h
  exact ⟨memo, by rw [hrun], rfl⟩

/--
**Bringing the table up to date.** The grammar is closed, and the table is now the one that belongs
to it. All frames of a parse under way have moved there.
-/
theorem updateTable_returns {p p' : Parser σ} {u : Unit} (h : updateTable.Returns p u p') :
    p.grammar.Closed ∧ TableOf p.grammar p'.table ∧
      (∃ memo stack,
        p' = { p with memo := memo, table := p'.table, isStale := false, stack := stack }) ∧
      ((p.stack = none ∧ p'.stack = none) ∨ ∃ fs fs', p.stack = some fs ∧ p'.stack = some fs' ∧
        List.Forall₂ (Moved p'.table) fs fs') := by
  unfold updateTable at h
  obtain ⟨_, p₁, hmemo, h⟩ := Run.returns_bind.mp h
  obtain rfl := Run.returns_modify.mp hmemo
  obtain ⟨q, p₂, hget, h⟩ := Run.returns_bind.mp h
  obtain ⟨rfl, rfl⟩ := Run.returns_get.mp hget
  obtain ⟨_, p₃, hcheck, h⟩ := Run.returns_bind.mp h
  obtain ⟨hchecked, rfl⟩ := Run.returns_ofExcept.mp hcheck
  have hclosed : p.grammar.Closed := closed_of_checked hchecked
  refine ⟨hclosed, ?_⟩
  obtain ⟨table, p₄, hcompile, h⟩ := Run.returns_bind.mp h
  obtain ⟨memo, hresult, rfl⟩ := compileTable_returns hcompile
  have htable := Grammar.tableOf_of_compile hclosed hresult
  obtain ⟨_, p₅, hset, h⟩ := Run.returns_bind.mp h
  obtain rfl := Run.returns_modify.mp hset
  cases hstack : p.stack with
  | none =>
    simp only [hstack] at h
    obtain ⟨-, rfl⟩ := Run.returns_pure.mp h
    exact ⟨htable, ⟨memo, none, rfl⟩, .inl ⟨rfl, rfl⟩⟩
  | some fs =>
    cases hrestore : restore table fs.reverse with
    | mk frames lost =>
    simp only [hstack, hrestore] at h
    obtain ⟨_, p₇, hset', h⟩ := Run.returns_bind.mp h
    obtain rfl := Run.returns_modify.mp hset'
    cases lost with
    | some key => exact absurd h Run.not_returns_refuse
    | none =>
      obtain ⟨-, rfl⟩ := Run.returns_pure.mp h
      have hmoved := moved_of_restore (congrArg Prod.snd hrestore)
      rw [hrestore] at hmoved
      refine ⟨htable, ⟨memo, _, rfl⟩, .inr ⟨fs, frames.reverse, rfl, rfl, ?_⟩⟩
      rw [← List.forall₂_reverse_iff, List.reverse_reverse]
      exact hmoved

end Parser

end GrammarEngine
