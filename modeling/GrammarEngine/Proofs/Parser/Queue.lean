import GrammarEngine.Proofs.Parser.Derivation
import GrammarEngine.Proofs.Parser.Steps

/-!
# A parse and its queue of tokens

Tokens are read ahead and given back, so what is tracked is the split of the input: the tokens that
were read, and those still in the queue, make up the input followed by end tokens (`Fed`).
Everything else in the course of a parse leaves the queue alone: an action that only computes has
changed neither the token nor the table, so a second look finds what the first one did.

Main results:

* `Fed.next`, `Fed.pushBack`, `Fed.ended` — how the split moves.
* `callAction_pure` — what an action that only computes leaves.
-/

namespace GrammarEngine

namespace Parser

open Grammar

-- ---------------------------------------------------------------------------
-- The queue of tokens
-- ---------------------------------------------------------------------------

/-- The tokens read so far and those still to come are the input, with end tokens behind it. -/
structure Fed (tokens leaves : List Token) (q : TokenQueue) : Prop where
  left : ∀ t ∈ q.left, t.isEnd = false
  split : ∃ ends, (∀ e ∈ ends, e.isEnd = true) ∧
    leaves ++ (q.pending.toList ++ q.left) = tokens ++ ends

/-- The queue hands over the token that was given back, or else the next one of the input, or
an end token. -/
theorem next_cases {q q' : TokenQueue} {t : Token} (h : TokenQueue.next.Returns q t q') :
    q'.pending = none ∧
      ((q.pending = some t ∧ q'.left = q.left) ∨ (q.pending = none ∧ q.left = t :: q'.left) ∨
        (q.pending = none ∧ q.left = [] ∧ q'.left = [] ∧ t.isEnd = true)) := by
  unfold TokenQueue.next at h
  obtain ⟨q₀, q₁, hget, h⟩ := Run.returns_bind.mp h
  obtain ⟨rfl, rfl⟩ := Run.returns_get.mp hget
  split at h
  · next token hpending =>
    obtain ⟨_, q₂, hset, h⟩ := Run.returns_bind.mp h
    obtain rfl := Run.returns_set.mp hset
    obtain ⟨rfl, rfl⟩ := Run.returns_pure.mp h
    exact ⟨rfl, .inl ⟨hpending, rfl⟩⟩
  · next token rest hpending hleft =>
    obtain ⟨_, q₂, hset, h⟩ := Run.returns_bind.mp h
    obtain rfl := Run.returns_set.mp hset
    obtain ⟨rfl, rfl⟩ := Run.returns_pure.mp h
    exact ⟨hpending, .inr (.inl ⟨hpending, hleft⟩)⟩
  · next hpending hleft =>
    obtain ⟨rfl, rfl⟩ := Run.returns_pure.mp h
    exact ⟨hpending, .inr (.inr ⟨hpending, hleft, hleft, Token.isEnd_endOfInput _⟩)⟩

theorem Fed.next {tokens leaves : List Token} {q q' : TokenQueue} {t : Token}
    (h : Fed tokens leaves q)
    (hnext : TokenQueue.next.Returns q t q') : Fed tokens (leaves ++ [t]) q' := by
  obtain ⟨ends, hends, hsplit⟩ := h.split
  obtain ⟨hnone, ⟨hpending, hleft⟩ | ⟨hpending, hleft⟩ | ⟨hpending, hleft, hleft', hend⟩⟩ :=
    next_cases hnext
  · refine ⟨fun x hx => h.left x (hleft ▸ hx), ends, hends, ?_⟩
    rw [hpending] at hsplit
    rw [hnone, hleft, List.append_assoc]
    exact hsplit
  · refine ⟨fun x hx => h.left x (by rw [hleft]; exact List.mem_cons_of_mem _ hx), ends, hends, ?_⟩
    rw [hpending, hleft] at hsplit
    rw [hnone, List.append_assoc]
    exact hsplit
  · refine ⟨by rw [hleft']; exact List.forall_mem_nil _, ends ++ [t], ?_, ?_⟩
    · intro e he
      rcases List.mem_append.mp he with he | he
      · exact hends e he
      · rw [List.mem_singleton.mp he]
        exact hend
    · rw [hpending, hleft] at hsplit
      simp only [Option.toList_none, List.append_nil] at hsplit
      simp only [hnone, hleft', hsplit, Option.toList_none, List.append_nil, List.append_assoc]

theorem pushBack_returns {q q' : TokenQueue} {t : Token} {u : Unit}
    (h : (TokenQueue.pushBack t).Returns q u q') :
    q.pending = none ∧ q' = { q with pending := some t } := by
  unfold TokenQueue.pushBack at h
  obtain ⟨q₀, q₁, hget, h⟩ := Run.returns_bind.mp h
  obtain ⟨rfl, rfl⟩ := Run.returns_get.mp hget
  split at h
  · exact absurd h Run.not_returns_fail
  · next hnone =>
    rw [Bool.not_eq_true, Option.isSome_eq_false_iff, Option.isNone_iff_eq_none] at hnone
    exact ⟨hnone, (Run.returns_set.mp h).symm⟩

theorem Fed.pushBack {tokens leaves : List Token} {q q' : TokenQueue} {t : Token} {u : Unit}
    (h : Fed tokens (leaves ++ [t]) q) (hback : (TokenQueue.pushBack t).Returns q u q') :
    Fed tokens leaves q' := by
  obtain ⟨hnone, rfl⟩ := pushBack_returns hback
  obtain ⟨ends, hends, hsplit⟩ := h.split
  refine ⟨h.left, ends, hends, ?_⟩
  rw [hnone, List.append_assoc] at hsplit
  exact hsplit

/-- If an end token comes next, all of the input has been read. -/
theorem Fed.ended {tokens leaves : List Token} {q q' : TokenQueue} {e : Token}
    (htokens : ∀ t ∈ tokens, t.isEnd = false) (h : Fed tokens leaves q)
    (hnext : TokenQueue.next.Returns q e q') (he : e.isEnd = true) :
    ∃ ends, (∀ e ∈ ends, e.isEnd = true) ∧ leaves = tokens ++ ends := by
  obtain ⟨ends, hends, hsplit⟩ := (h.next hnext).split
  rw [List.append_assoc] at hsplit
  rcases List.append_eq_append_iff.mp hsplit with ⟨more, rfl, hmore⟩ | ⟨more, rfl, hmore⟩
  · cases more with
    | nil => exact ⟨[], List.forall_mem_nil _, by rw [List.append_nil, List.append_nil]⟩
    | cons x more =>
      -- the end token would be one of the input
      rw [List.singleton_append, List.cons_append, List.cons.injEq] at hmore
      have hx := htokens x (List.mem_append_right _ (List.mem_cons_self ..))
      rw [← hmore.1, he] at hx
      cases hx
  · refine ⟨more, fun x hx => hends x ?_, rfl⟩
    rw [hmore]
    exact List.mem_append_left _ hx

theorem Fed.of_warned {tokens leaves : List Token} {q q' : TokenQueue} (hwarned : Warned q q')
    (h : Fed tokens leaves q) : Fed tokens leaves q' := by
  induction hwarned with
  | refl => exact h
  | report _ hreport ih =>
    obtain ⟨_, hreport⟩ := Run.returns_discard.mp hreport
    obtain ⟨_, -, rfl⟩ := Run.returns_zoom.mp hreport
    exact ⟨ih.left, ih.split⟩

-- ---------------------------------------------------------------------------
-- The parser around it
-- ---------------------------------------------------------------------------

variable {g : Grammar (Action TokenQueue)} {kinds : List String} {table : Table}
  {tokens leaves : List Token} {p p' : Parser TokenQueue}

/-- A parser in the middle of a parse, with `leaves` read of `tokens`. -/
structure Parsing (g : Grammar (Action TokenQueue)) (kinds : List String) (table : Table)
    (tokens leaves : List Token) (p : Parser TokenQueue) : Prop where
  grammar_eq : p.grammar = g
  table_eq : p.table = table
  kinds_eq : p.keywordKinds = kinds
  fed : ∃ q, p.source = some q ∧ Fed tokens leaves q

namespace Parsing

theorem kept (h : Parsing g kinds table tokens leaves p) (hkept : Kept p p') :
    Parsing g kinds table tokens leaves p' where
  grammar_eq := hkept.grammar.trans h.grammar_eq
  table_eq := hkept.table.trans h.table_eq
  kinds_eq := hkept.keywordKinds.trans h.kinds_eq
  fed := by
    obtain ⟨q, hq, hfed⟩ := h.fed
    obtain ⟨q', hq', hwarned⟩ := hkept.source q hq
    exact ⟨q', hq', hfed.of_warned hwarned⟩

theorem next {rounds : Nat} {t : Token} (h : Parsing g kinds table tokens leaves p)
    (hnext : (nextToken rounds).Returns p t p') :
    Parsing g kinds table tokens (leaves ++ [t]) p' ∧ p'.stack = p.stack := by
  obtain ⟨q, q', hq, hqueue, rfl⟩ := nextToken_returns hnext
  obtain ⟨q₀, hq₀, hfed⟩ := h.fed
  rw [hq, Option.some.injEq] at hq₀
  subst hq₀
  exact ⟨⟨h.grammar_eq, h.table_eq, h.kinds_eq, q', rfl, hfed.next hqueue⟩, rfl⟩

theorem giveBack {token : Option Token} {u : Unit}
    (h : Parsing g kinds table tokens (leaves ++ token.toList) p)
    (hback : (giveBack token).Returns p u p') : Parsing g kinds table tokens leaves p' := by
  cases token with
  | none =>
    obtain ⟨-, rfl⟩ := Run.returns_pure.mp hback
    rw [Option.toList_none, List.append_nil] at h
    exact h
  | some t =>
    obtain ⟨q, q', hq, hqueue, rfl⟩ := giveBack_returns hback
    obtain ⟨q₀, hq₀, hfed⟩ := h.fed
    rw [hq, Option.some.injEq] at hq₀
    subst hq₀
    exact ⟨h.grammar_eq, h.table_eq, h.kinds_eq, q', rfl, hfed.pushBack hqueue⟩

/-- Where the input is at its end all of it has been read. -/
theorem ended {rounds : Nat} {u : Unit} (htokens : ∀ t ∈ tokens, t.isEnd = false)
    (h : Parsing g kinds table tokens leaves p) (hend : (expectEnd rounds).Returns p u p') :
    ∃ ends, (∀ e ∈ ends, e.isEnd = true) ∧ leaves = tokens ++ ends := by
  obtain ⟨e, he, hnext⟩ := expectEnd_returns hend
  obtain ⟨q, q', hq, hqueue, rfl⟩ := nextToken_returns hnext
  obtain ⟨q₀, hq₀, hfed⟩ := h.fed
  rw [hq, Option.some.injEq] at hq₀
  subst hq₀
  exact hfed.ended htokens hqueue he

end Parsing

/-- A token that was given back is the next one. -/
theorem nextToken_of_giveBack {rounds : Nat} {t t' : Token} {u : Unit}
    {p₁ p₂ p₃ : Parser TokenQueue}
    (hback : (giveBack (some t)).Returns p u p₁) (hsource : p₂.source = p₁.source)
    (hnext : (nextToken rounds).Returns p₂ t' p₃) : t' = t := by
  obtain ⟨q, q', hq, hqueue, rfl⟩ := giveBack_returns hback
  obtain ⟨-, rfl⟩ := pushBack_returns hqueue
  obtain ⟨q₂, q₃, hq₂, hqueue', -⟩ := nextToken_returns hnext
  rw [hsource, Option.some.injEq] at hq₂
  subst hq₂
  obtain ⟨-, ⟨hpending, -⟩ | ⟨hpending, -⟩ | ⟨hpending, -⟩⟩ := next_cases hqueue'
  · exact (Option.some.inj hpending).symm
  · cases hpending
  · cases hpending

/-- An action that only computes makes the value of its pattern, and changes nothing else
that matters. -/
theorem callAction_pure {frame : Frame TokenQueue} {values : List Value}
    {positions : List (Option Position)} {v : Value}
    (hpure : ∀ action, frame.action = some action → ∀ values,
      (∃ v, action values = .done v) ∨ ∃ fault, action values = .fail fault)
    (h : (callAction frame values positions).Returns p v p') :
    Evaluates frame.action values v ∧ p'.stack = p.stack ∧ p'.source = p.source ∧ Kept p p' := by
  rcases callAction_returns h with ⟨hnone, rfl, rfl⟩ | ⟨action, p₁, haction, hperform, rfl⟩
  · refine ⟨?_, rfl, rfl, .refl p'⟩
    rw [hnone]
    rfl
  · rcases hpure action haction values with ⟨w, hdone⟩ | ⟨fault, hfail⟩
    · rw [hdone] at hperform
      obtain ⟨rfl, rfl⟩ := Run.returns_pure.mp hperform
      refine ⟨?_, rfl, rfl, rfl, rfl, rfl, rfl, fun s hs => ⟨s, hs, .refl s⟩⟩
      rw [haction]
      exact hdone
    · rw [hfail] at hperform
      exact absurd hperform Run.not_returns_fail

end Parser

end GrammarEngine
