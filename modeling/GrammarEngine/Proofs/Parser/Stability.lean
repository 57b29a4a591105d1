import GrammarEngine.Parser.Drive
import GrammarEngine.Proofs.Outcomes

/-!
# Parses with more rounds

A parse is given a number of rounds, for the machine and for the scanning of each token. The number
only says how long to go on: once a parse has come to something, a value or a fault, it comes to the
same with more rounds.

Main results:

* `stable_next` — scanning is stable.
* `stable_round`, `stable_parse` — so are the rounds of the machine, and the parse.
-/

namespace GrammarEngine

open Run (Stable stable_const stable_bind stable_ite stable_discard stable_iterate)

-- ---------------------------------------------------------------------------
-- Sources
-- ---------------------------------------------------------------------------

/-- A scanner that has found its token needs no more rounds. -/
theorem Scanner.stable_next : Stable Scanner.next := by
  refine stable_bind (stable_const _) fun s => ?_
  cases s.pending with
  | some token => exact stable_const _
  | none =>
    cases s.ended with
    | some token => exact stable_const _
    | none => exact stable_ite (stable_const _) (Run.stable_repeated _)

namespace TokenSource

variable {σ τ α : Type}

/-- A choice between two sources is stable if they are. -/
theorem stable_either {left : Nat → Run σ α} {right : Nat → Run τ α}
    (hleft : Stable left) (hright : Stable right) : Stable fun n => either (left n) (right n) := by
  intro n s hfinished m hm
  cases s with
  | inl s =>
    have hsame : (left m) s = (left n) s := hleft n s hfinished m hm
    show onLeft (left m) s = onLeft (left n) s
    unfold onLeft
    rw [hsame]
  | inr s =>
    have hsame : (right m) s = (right n) s := hright n s hfinished m hm
    show onRight (right m) s = onRight (right n) s
    unfold onRight
    rw [hsame]

/-- The tokens of a scanner, or of a queue. -/
theorem stable_next : Stable (TokenSource.next : Nat → Run (TokenQueue ⊕ Scanner) Token) :=
  stable_either (stable_const _) Scanner.stable_next

end TokenSource

namespace Parser

variable {σ α : Type}

/-- Work on the source is stable if it is on the source itself. -/
theorem stable_onSource {work : Nat → Run σ α} (hwork : Stable work) :
    Stable fun n => onSource (work n) := by
  intro n p hfinished m hm
  cases hsource : p.source with
  | none =>
    have hnone : ∀ k, (onSource (work k)).run p = ⟨.error .precondition, p, []⟩ := by
      intro k
      simp only [Run.run, onSource, hsource]
      rfl
    dsimp only
    rw [hnone, hnone]
  | some s =>
    have hsome : ∀ k, (onSource (work k)).run p =
        ⟨((work k).run s).result, { p with source := some ((work k).run s).state },
          ((work k).run s).trace⟩ := by
      intro k
      simp only [Run.run, onSource, hsource]
    dsimp only at hfinished ⊢
    rw [hsome] at hfinished
    rw [hsome, hsome, hwork n s hfinished m hm]

-- ---------------------------------------------------------------------------
-- The machine
-- ---------------------------------------------------------------------------

section Machine

variable [TokenSource σ] (hsource : Stable (TokenSource.next : Nat → Run σ Token))

include hsource

/-- The next token is the only work that is bounded by rounds. -/
theorem stable_nextToken : Stable (nextToken : Nat → Run (Parser σ) Token) :=
  stable_bind (stable_onSource hsource) fun _ => stable_const _

theorem stable_expectEnd : Stable (expectEnd : Nat → Run (Parser σ) Unit) :=
  stable_bind (stable_nextToken hsource) fun _ => stable_const _

theorem stable_finish (token : Option Token) :
    Stable fun n => (finish n token : Run (Parser σ) Bool) := by
  refine stable_bind (stable_const _) fun _ => stable_bind (stable_const _) fun frames => ?_
  match frames with
  | [] => exact stable_const _
  | [root] =>
    refine stable_bind (stable_const _) fun _ => stable_bind (stable_expectEnd hsource) fun _ => ?_
    exact stable_bind (stable_const _) fun _ => stable_const _
  | _ :: _ :: _ => exact stable_const _

/-- Settling finishes frames, which is stable. -/
theorem stable_settle (site : Site) (token : Option Token) :
    Stable fun n => (settle n site token : Run (Parser σ) (Site ⊕ Unit)) := by
  refine stable_ite ?_ (stable_bind (stable_finish hsource _) fun done => ?_)
  · cases token with
    | some token => exact stable_bind (stable_const _) fun _ => stable_const _
    | none => exact stable_bind (stable_nextToken hsource) fun _ => stable_const _
  · refine stable_ite (stable_const _) (stable_bind (stable_const _) fun frames => ?_)
    match frames with
    | [] => exact stable_const _
    | [_] =>
      refine stable_bind (stable_finish hsource _) fun done => ?_
      exact stable_ite (stable_const _) (stable_const _)
    | _ :: _ :: _ => exact stable_const _

theorem stable_proceed (site : Site) (token : Token) :
    Stable fun n => (proceed n site token : Run (Parser σ) (Site ⊕ Unit)) := by
  refine stable_bind (stable_const _) fun p => ?_
  cases site.state.transition? p.keywordKinds token with
  | some t => exact stable_const _
  | none => exact stable_settle hsource site _

/-- **One round** is stable: with more rounds for the scanner it comes to the same. -/
theorem stable_round (site : Site) :
    Stable fun n => (round n site : Run (Parser σ) (Site ⊕ Unit)) := by
  refine stable_ite (stable_settle hsource site _)
    (stable_bind (stable_nextToken hsource) fun token => ?_)
  refine stable_bind (stable_const _) fun p => ?_
  cases site.state.transition? p.keywordKinds token with
  | none => exact stable_settle hsource site _
  | some t =>
    refine stable_ite ?_ (stable_const _)
    refine stable_bind (stable_const _) fun _ =>
      stable_bind (stable_discard (stable_finish hsource _)) fun _ => ?_
    refine stable_bind (stable_const _) fun _ => stable_bind (stable_nextToken hsource) fun _ => ?_
    exact stable_proceed hsource _ _

/-- **A parse that has come to something** comes to the same with more rounds. -/
theorem stable_parse (rule : String) (source : σ) :
    Stable fun n => (parse n rule source : Run (Parser σ) Value) := by
  refine stable_bind (stable_const _) fun r => stable_bind (stable_const _) fun _ => ?_
  refine stable_bind (stable_const _) fun p => ?_
  dsimp only
  cases p.table.find? ⟨r.id, none, 0⟩ with
  | none => exact stable_const _
  | some state =>
    refine stable_bind (stable_const _) fun _ => ?_
    exact stable_bind (stable_iterate (stable_round hsource) _) fun _ => stable_const _

end Machine

end Parser

end GrammarEngine
