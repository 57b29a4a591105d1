import GrammarEngine.Proofs.Grammar.Exactness
import GrammarEngine.Proofs.Parser.Derivation

/-!
# What may follow a rule

The parser shifts as long as it can, and never takes a shift back. A derivation may ask for the
opposite: an instance is complete, though its state would go on with the very token that comes next,
because something behind the instance begins with that token. `Table.Follow` collects, from the
transitions of a table, the tokens that may come behind an instance of a rule, and
`Table.ConflictFree` says that no state where a pattern may end has a transition on one of them.

A table knows terminals, the input has tokens. In a grammar that only distinguishes tokens by what
they are (`Grammar.Plain`), every token of the input stands for one terminal (`Token.terminal`), and
looking up its transition means looking that up.

Main results:

* `Grammar.terminal_of_matches` — a terminal of the grammar that a token matches is the
  terminal of the token.
* `TableOf.transition?_of_path` — the transition of a state for a token is its path on the
  terminal of the token.
-/

namespace GrammarEngine

-- ---------------------------------------------------------------------------
-- Tokens behind a rule
-- ---------------------------------------------------------------------------

/-- The rule that the token just read refers to, if it refers to one. -/
def State.refersTo? (s : State) : Option String :=
  match s.tokens[s.key.index]? with
  | some ⟨.reference, name⟩ => some name
  | _ => none

/-- `table.Follow name d`: a token of the terminal `d` may come behind an instance of the rule
`name`. A state behind a reference to the rule may go on with it; or it may end its pattern, and the
token may come behind an instance of the rule of that pattern. -/
inductive Table.Follow (table : Table) : String → Descriptor → Prop
  | next {s : State} {name : String} {t : Transition} (hs : s ∈ table)
      (hname : s.refersTo? = some name) (ht : t ∈ s.transitions) :
      Follow table name t.token
  | outer {s : State} {name : String} {d : Descriptor} (hs : s ∈ table)
      (hname : s.refersTo? = some name) (hreducible : s.reducible = true)
      (h : Follow table s.key.rule.name d) : Follow table name d

/-- Where a pattern may end, no transition is on a token that may come behind an
instance of its rule. -/
def Table.ConflictFree (table : Table) : Prop :=
  ∀ s ∈ table, s.key.pattern.isSome = true → s.reducible = true →
    ∀ t ∈ s.transitions, ¬ table.Follow s.key.rule.name t.token

/-- A family of terminals that is closed under what a table says holds all that may follow, so a
table is free of conflicts if no state has a transition into the family. -/
theorem Table.conflictFree_of_family {table : Table} (family : String → List Descriptor)
    (hnext : ∀ s ∈ table, ∀ name ∈ s.refersTo?, ∀ t ∈ s.transitions, t.token ∈ family name)
    (houter : ∀ s ∈ table,
      ∀ name ∈ s.refersTo?, s.reducible = true → family s.key.rule.name ⊆ family name)
    (hfree : ∀ s ∈ table, s.key.pattern.isSome = true → s.reducible = true →
      ∀ t ∈ s.transitions, t.token ∉ family s.key.rule.name) : table.ConflictFree := by
  have hfollow : ∀ {name : String} {d : Descriptor}, table.Follow name d → d ∈ family name := by
    intro name d h
    induction h with
    | next hs hname ht => exact hnext _ hs _ hname _ ht
    | outer hs hname hreducible _ ih => exact houter _ hs _ hname hreducible ih
  exact fun s hs hpattern hreducible t ht h => hfree s hs hpattern hreducible t ht (hfollow h)

-- ---------------------------------------------------------------------------
-- Tokens and their terminals
-- ---------------------------------------------------------------------------

/-- The terminal that a token of the input stands for. -/
def Token.terminal (t : Token) : Descriptor :=
  if t.kind = Token.literalKind then ⟨.literal, t.value.shown⟩ else ⟨.category, t.kind⟩

namespace Grammar

variable {σ : Type} {g : Grammar σ} {kinds : List String} {token : Token}

/-- A descriptor is an element of a pattern. -/
def Uses (g : Grammar σ) (d : Descriptor) : Prop := ∃ r ∈ g.rules, ∃ p ∈ r.patterns, d ∈ p.tokens

/-- No pattern asks for the end of the input, and no category has the name of the kind
of literals. -/
structure Plain (g : Grammar σ) : Prop where
  no_end : ∀ d, g.Uses d → d.kind ≠ .endOfInput
  no_literalKind : ¬ g.Uses ⟨.category, Token.literalKind⟩

/-- A token of one of the keyword kinds does not spell a literal of the grammar. -/
def Unspelled (g : Grammar σ) (kinds : List String) (token : Token) : Prop :=
  token.kind ∈ kinds → ∀ word, token.value = .text word → ¬ g.Uses ⟨.literal, word⟩

/-- A terminal of the grammar that a token matches is the terminal of the token. -/
theorem terminal_of_matches (hplain : g.Plain) (hspelled : g.Unspelled kinds token)
    (hend : token.isEnd = false)
    {d : Descriptor} (huses : g.Uses d) (h : d.Matches kinds token) : d = token.terminal := by
  unfold Token.terminal
  cases h with
  | literal _ hkind => rw [if_pos hkind]
  | keyword _ hkind hword => exact absurd huses (hspelled hkind _ hword)
  | category =>
    rw [if_neg]
    intro hkind
    rw [hkind] at huses
    exact hplain.no_literalKind huses
  | endOfInput hend' =>
    rw [hend] at hend'
    cases hend'

theorem normalized_terminal (token : Token) : token.terminal.normalized = token.terminal := by
  unfold Token.terminal
  split <;> rfl

/-- What a way leads to is an element of a pattern. -/
theorem Way.uses {r : Rule σ} {pattern index : Nat} {chain : List Key} {target : Key}
    {terminal : Descriptor} (hr : r ∈ g.rules) (h : g.Way r pattern index chain target terminal) :
    ∃ d, g.Uses d ∧ terminal = d.normalized := by
  induction h with
  | terminal hp hd _ => exact ⟨_, ⟨_, hr, _, List.mem_of_getElem? hp, List.mem_of_getElem? hd⟩, rfl⟩
  | enter _ _ _ hs _ ih => exact ih (mem_of_find?_eq_some hs)
  | skip _ _ _ _ _ _ ih => exact ih hr

theorem Path.uses {k : Key} {t : Transition} (h : g.Path k t) :
    ∃ d, g.Uses d ∧ t.token = d.normalized := by
  cases h with
  | entry hr hway | onward hr hway | again hr _ _ _ _ hway => exact hway.uses hr

/-- In a plain grammar no path is on the end of the input. -/
theorem Plain.path_uses (hplain : g.Plain) {k : Key} {t : Transition} (h : g.Path k t) :
    g.Uses t.token ∧ t.token.kind ≠ .endOfInput := by
  obtain ⟨d, huses, heq⟩ := h.uses
  have hkind := hplain.no_end d huses
  have hnormal : d.normalized = d := by
    unfold Descriptor.normalized
    split
    · next hd => exact absurd hd hkind
    · rfl
  rw [heq, hnormal]
  exact ⟨huses, hkind⟩

end Grammar

-- ---------------------------------------------------------------------------
-- Looking up transitions
-- ---------------------------------------------------------------------------

namespace TableOf

open Grammar

variable {σ : Type} {g : Grammar σ} {table : Table} {kinds : List String} {token : Token}
  {s : State} {t : Transition}

/-- The end of the input has no transition. -/
theorem transition?_of_isEnd (htable : TableOf g table) (hplain : g.Plain) (hs : s ∈ table)
    (hend : token.isEnd = true) : s.transition? kinds token = none := by
  unfold State.transition?
  rw [if_pos hend]
  cases hfind : s.find? .atEnd with
  | none => rfl
  | some t =>
    obtain ⟨ht, htoken⟩ := State.mem_of_find?_eq_some hfind
    have hkind := (hplain.path_uses ((htable.path s hs t).mp ht)).2
    rw [htoken] at hkind
    exact absurd rfl hkind

/-- Looking up the transition for a token means looking up its terminal. -/
theorem transition?_eq_find? (htable : TableOf g table) (hplain : g.Plain)
    (hspelled : g.Unspelled kinds token) (hs : s ∈ table) (hend : token.isEnd = false) :
    s.transition? kinds token = s.find? token.terminal := by
  unfold State.transition? Token.terminal
  rw [hend, if_neg Bool.false_ne_true]
  split
  · rfl
  · next hliteral =>
    cases hvalue : token.value with
    | text word =>
      by_cases hkind : token.kind ∈ kinds
      · -- the word is no literal of the grammar
        have hnone : s.find? ⟨.literal, word⟩ = none := by
          cases hfind : s.find? ⟨.literal, word⟩ with
          | none => rfl
          | some t =>
            obtain ⟨ht, htoken⟩ := State.mem_of_find?_eq_some hfind
            have huses := (hplain.path_uses ((htable.path s hs t).mp ht)).1
            rw [htoken] at huses
            exact absurd huses (hspelled hkind word hvalue)
        simp only [hkind, if_true, hnone]
        rfl
      · simp only [hkind, if_false]
        rfl
    | nothing | number | list | series => rfl

/-- The transition of a state for a token is its path on the terminal of the token. -/
theorem transition?_of_path (htable : TableOf g table) (hplain : g.Plain)
    (hspelled : g.Unspelled kinds token) (hs : s ∈ table) (hend : token.isEnd = false)
    (h : g.Path s.key t) (ht : t.token = token.terminal) : s.transition? kinds token = some t := by
  rw [htable.transition?_eq_find? hplain hspelled hs hend, ← ht]
  exact htable.find?_of_path hs h

/-- Where a pattern may end, a token that may come behind an instance of its rule has no
transition. -/
theorem transition?_of_follow (htable : TableOf g table) (hplain : g.Plain)
    (hfree : table.ConflictFree)
    (hspelled : g.Unspelled kinds token) (hs : s ∈ table) (hend : token.isEnd = false)
    (hpattern : s.key.pattern.isSome = true) (hreducible : s.reducible = true)
    (h : table.Follow s.key.rule.name token.terminal) : s.transition? kinds token = none := by
  rw [htable.transition?_eq_find? hplain hspelled hs hend]
  cases hfind : s.find? token.terminal with
  | none => rfl
  | some t =>
    obtain ⟨ht, htoken⟩ := State.mem_of_find?_eq_some hfind
    rw [← htoken] at h
    exact absurd h (hfree s hs hpattern hreducible t ht)

end TableOf

end GrammarEngine
