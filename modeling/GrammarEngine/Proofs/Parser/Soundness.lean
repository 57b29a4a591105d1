import GrammarEngine.Proofs.Parser.Ledger
import GrammarEngine.Proofs.Parser.Stack

/-!
# The parser is sound

A value that a parse returns is the value of a derivation of its input. The theorem is about every
grammar whose tables can be made, whether its rules repeat, are optional or call each other in
circles, every row of tokens, and every choice of actions that only compute.

The tree that the stack grows is one of the tokens that were read, and with those still in the queue
they make up the input. In the end the tree is a derivation of all of it.

Main results:

* `ledger_readSoFar` — the account of a tree may be that its leaves are the tokens read so far.
* `round_advances` — a round completes the innermost pattern, or reads a token more, or
  is the last one.
* `parse_sound` — the value of a parse is that of a derivation of the input.
-/

namespace GrammarEngine

namespace Parser

open Grammar

variable {g : Grammar (Action TokenQueue)} {kinds : List String} {table : Table}
  {start : Rule (Action TokenQueue)} {tokens leaves : List Token} {p p' : Parser TokenQueue}

-- ---------------------------------------------------------------------------
-- Rounds
-- ---------------------------------------------------------------------------

/-- The stack when a round begins: nothing has been read yet, or a pattern is under way. -/
inductive Head (g : Grammar (Action TokenQueue)) (kinds : List String) (table : Table)
    (start : Rule (Action TokenQueue)) : List (Frame TokenQueue) → List Token → Prop
  | first {root : Frame TokenQueue}
      (hsite : Sits table root.site) (hkey : root.key = ⟨start.id, none, 0⟩)
      (hvalues : root.values = []) : Head g kinds table start [root] []
  | later {frames : List (Frame TokenQueue)} {leaves : List Token}
      (h : Standing g kinds table start frames leaves) : Head g kinds table start frames leaves

/-- A round begins at the state of the innermost frame, with `leaves` read. -/
def Opens (g : Grammar (Action TokenQueue)) (kinds : List String) (table : Table)
    (start : Rule (Action TokenQueue)) (tokens leaves : List Token) (site : Site)
    (p : Parser TokenQueue) : Prop :=
  ∃ top below, p.stack = some (top :: below) ∧ site = top.site ∧
    Head g kinds table start (top :: below) leaves ∧ Parsing g kinds table tokens leaves p

/-- What a round comes to that is not the last one, from a state with `leaves` read: the innermost
pattern is completed, or another token is read. -/
inductive Advances (g : Grammar (Action TokenQueue)) (kinds : List String) (table : Table)
    (start : Rule (Action TokenQueue)) (tokens leaves : List Token) (rounds : Nat) (site : Site)
    (p : Parser TokenQueue) (site' : Site) (p' : Parser TokenQueue) : Prop
  | completes (hopens : Opens g kinds table start tokens leaves site' p')
      (hsettles : Settles rounds site p) (hheight : p'.height + 1 = p.height)
  | reads {token : Token} {t : Transition}
      (hopens : Opens g kinds table start tokens (leaves ++ [token]) site' p')
    (ht : t ∈ site.state.transitions) (hmatch : t.token.Matches kinds token)
      (hkey : site'.state.key = t.target) (hheight : p'.height ≤ p.height + t.skipped.length + 1)

/-- The account of a tree that only says which tokens were read. -/
def ReadSoFar (g : Grammar (Action TokenQueue)) (kinds : List String) (table : Table)
    (tokens : List Token)
    (marks : List (Mark TokenQueue)) (ahead : Option Token) (p : Parser TokenQueue) : Prop :=
  Parsing g kinds table tokens (Mark.tokens marks ++ ahead.toList) p

theorem ledger_readSoFar : Ledger g kinds table tokens (ReadSoFar g kinds table tokens) where
  parsing h := h
  of_source h hkept _ := h.kept hkept
  read h hnext := by
    unfold ReadSoFar at h
    rw [Option.toList_none, List.append_nil] at h
    exact (h.next hnext).1
  unread h hback := by
    unfold ReadSoFar
    rw [Option.toList_none, List.append_nil]
    exact h.giveBack hback
  shifted h hshift := by
    obtain ⟨-, hkept, -⟩ := shift_returns hshift
    unfold ReadSoFar
    rw [Mark.tokens_append, Mark.tokens_append, Mark.tokens_map_opens, Option.toList_none,
      List.append_nil]
    exact h.kept hkept

/-- A round begins with the stack a derivation of what was read, if that is what the tree holds. -/
theorem opens_iff {site : Site} : Opens g kinds table start tokens leaves site p ↔
    ∃ marks, Unfolds g kinds table start (ReadSoFar g kinds table tokens) marks site p ∧
      Mark.tokens marks = leaves := by
  have hreads : ∀ marks, ReadSoFar g kinds table tokens marks none p ↔
      Parsing g kinds table tokens (Mark.tokens marks) p := by
    intro marks
    unfold ReadSoFar
    rw [Option.toList_none, List.append_nil]
  constructor
  · rintro ⟨top, below, hstack, hsite, hhead, hparse⟩
    cases hhead with
    | first hsits hkey hvalues =>
      exact ⟨[], ⟨top, [], hstack, hsite, .first hsits hkey hvalues, (hreads []).mpr hparse⟩, rfl⟩
    | later hstand =>
      obtain ⟨marks, hgrown, rfl⟩ := standing_iff.mp hstand
      exact ⟨marks, ⟨top, below, hstack, hsite, .later hgrown, (hreads marks).mpr hparse⟩, rfl⟩
  · rintro ⟨marks, ⟨top, below, hstack, hsite, hstage, hread⟩, rfl⟩
    refine ⟨top, below, hstack, hsite, ?_, (hreads marks).mp hread⟩
    cases hstage with
    | first hsits hkey hvalues => exact .first hsits hkey hvalues
    | later hgrown => exact .later (standing_iff.mpr ⟨marks, hgrown, rfl⟩)

/-- **One round.** A round that begins with the stack a derivation of what was read completes the
innermost pattern or reads another token, unless it is the last one. -/
theorem round_advances (htable : TableOf g table) (hpure : g.Pure) (hstart : start ∈ g.rules)
    (htokens : ∀ t ∈ tokens, t.isEnd = false) {rounds : Nat} {site : Site} {next : Site ⊕ Unit}
    (hopens : Opens g kinds table start tokens leaves site p)
    (h : (round rounds site).Returns p next p') :
    (∃ site',
      next = .inl site' ∧ Advances g kinds table start tokens leaves rounds site p site' p') ∨
      next = .inr () := by
  obtain ⟨marks, hunfolds, rfl⟩ := opens_iff.mp hopens
  rcases ledger_readSoFar.round_grows htable hpure hstart htokens hunfolds h with
    ⟨site', rfl, ⟨hunfolds', hsettles, hheight⟩ | ⟨hunfolds', ht, hmatch, hkey, hheight⟩⟩ | ⟨rfl, -⟩
  · exact .inl ⟨site', rfl, .completes (opens_iff.mpr ⟨marks, hunfolds', rfl⟩) hsettles hheight⟩
  · refine .inl ⟨site', rfl, .reads (opens_iff.mpr ⟨_, hunfolds', ?_⟩) ht hmatch hkey hheight⟩
    rw [Mark.tokens_append, Mark.tokens_append, Mark.tokens_map_opens]
    rfl
  · exact .inr rfl

-- ---------------------------------------------------------------------------
-- The whole parse
-- ---------------------------------------------------------------------------

/--
**Soundness.** If the tables of a grammar can be made and the parse of a queue of tokens returns a
value, some end tokens behind the input make it an instance of the start rule (several in a row if
it repeats, or none if it can match nothing) with that value.
-/
theorem parse_sound {p p' : Parser TokenQueue} {q : TokenQueue} {rule : String} {rounds : Nat}
    {v : Value}
    (hpure : p.grammar.Pure) (hpending : q.pending = none) (htokens : ∀ t ∈ q.left, t.isEnd = false)
    (h : (updateTable >>= fun _ => parse rounds rule q).Returns p v p') :
    ∃ ends, (∀ e ∈ ends, e.isEnd = true) ∧
      p.grammar.Slot p.keywordKinds ⟨.reference, rule⟩ (q.left ++ ends) v := by
  obtain ⟨_, p₁, hupdate, hparse⟩ := Run.returns_bind.mp h
  obtain ⟨-, htable, ⟨memo, stack, hp₁⟩, -⟩ := updateTable_returns hupdate
  have hgrammar : p₁.grammar = p.grammar := by rw [hp₁]
  have hkinds : p₁.keywordKinds = p.keywordKinds := by rw [hp₁]
  -- at first the queue holds all of the input, and nothing has been read
  have hinit : ReadSoFar p.grammar p.keywordKinds p₁.table q.left []
      none { p₁ with source := some q } := by
    refine ⟨hgrammar, rfl, hkinds, q, rfl, htokens, [], List.forall_mem_nil _, ?_⟩
    rw [hpending, List.append_nil]
    rfl
  obtain ⟨trees, ends, -, hends, hleaves, hfills, -⟩ :=
    ledger_readSoFar.parse_grows htable hpure htokens (by rw [hp₁]) hinit hparse
  exact ⟨ends, hends, hleaves ▸ hfills.slot⟩

/-- A list of any number of items up to the end of the input. -/
private def lists : Parser TokenQueue where
  grammar :=
    { rules :=
        [{ id := ⟨"list", 0⟩
           patterns := [.ofTokens [⟨.reference, "items"⟩, .atEnd]
             (some fun values => .done (values.headD .nothing))] },
          { id := ⟨"items", 1⟩
            patterns :=
              [.ofTokens [⟨.category, "ID"⟩] (some fun values => .done (values.headD .nothing))]
            markedOptional := true
            repeatable := true }]
      distinct := by decide }
  declared := 2
  stamped := by decide

/-- Two words in a row. -/
private def twoWords : TokenQueue :=
  .ofTokens "words" [("ID", .text "a", none), ("ID", .text "b", none)]

private theorem pure_lists : lists.grammar.Pure := by
  intro r hr pattern hpattern action haction values
  simp only [lists, List.mem_cons, List.not_mem_nil, or_false] at hr
  rcases hr with rfl | rfl <;>
    simp only [List.mem_singleton] at hpattern <;>
    subst hpattern <;>
    exact .inl ⟨values.headD .nothing, by rw [← Option.some.inj haction]⟩

/-- Two words are a list: the parse returns them, and they are its derivation. -/
theorem parse_sound_words :
    ((updateTable >>= fun _ => parse 9 "list" twoWords).run lists).result.toOption =
        some (.series [.text "a", .text "b"]) ∧
      ∃ ends, (∀ e ∈ ends, e.isEnd = true) ∧ lists.grammar.Slot lists.keywordKinds
        ⟨.reference, "list"⟩ (twoWords.left ++ ends) (.series [.text "a", .text "b"]) := by
  have hresult : ((updateTable >>= fun _ => parse 9 "list" twoWords).run lists).result.toOption =
      some (.series [.text "a", .text "b"]) := by decide +kernel
  exact ⟨hresult, parse_sound pure_lists rfl (by decide) (Run.returns_of_result hresult)⟩

end Parser

end GrammarEngine
