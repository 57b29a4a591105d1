import GrammarEngine.Scanner.Scan

/-!
# Sources of tokens

A parser reads its tokens from a source. The source delivers the next token (at the end of the input
the end token, again and again), takes one token back, knows where it is, and reports what is found
about its input. A scanner is a source; a queue of tokens that were made before is another one.

Main results:

* `TokenQueue.next_nil` — at the end of a queue the end token is delivered and nothing changes.
-/

namespace GrammarEngine

/-- Where a parser gets its tokens from. The first argument of `next` bounds the rounds of scanning.
An error that is reported does not return. -/
class TokenSource (σ : Type) where
  next : Nat → Run σ Token
  pushBack : Token → Run σ Unit
  position : σ → Option Position
  error : String → String → Option Position → Payload → Run σ Empty
  warning : String → String → Option Position → Payload → Run σ Unit

instance : TokenSource Scanner where
  next := Scanner.next
  pushBack := Scanner.pushBack
  position s := some s.position
  error := Scanner.errorAt
  warning := Scanner.report .warning

/-- Tokens made before, numbered as the lines of a labelled input. `left` are still to be delivered,
and `taken` were. -/
structure TokenQueue where
  label : String
  left : List Token
  taken : Nat := 0
  pending : Option Token := none
  messages : MessageLog := {}

namespace TokenQueue

/-- The place of the token of an index. -/
def place (label : String) (index : Nat) : Position := ⟨label, index + 1, 1⟩

/-- A queue of tokens; one that is given no position of its own gets that of its place
in the queue. -/
def ofTokens (label : String) (tokens : List (String × Value × Option (Option Position))) :
    TokenQueue where
  label := label
  left := tokens.zipIdx.map fun ((kind, value, position), index) =>
    ⟨kind, value, position.getD (some (place label index))⟩

/-- Delivers the next token. -/
def next : Run TokenQueue Token := do
  let q ← Run.get
  match q.pending, q.left with
  | some token, _ =>
    Run.set { q with pending := none }
    pure token
  | none, token :: rest =>
    Run.set { q with left := rest, taken := q.taken + 1 }
    pure token
  | none, [] => pure (Token.endOfInput (some (place q.label q.taken)))

/-- Takes a token back. There can be only one. -/
def pushBack (token : Token) : Run TokenQueue Unit := do
  let q ← Run.get
  if q.pending.isSome then Run.fail .pushBackOccupied else Run.set { q with pending := some token }

/-- Works on the message log. -/
def onMessages {α : Type} (x : Run MessageLog α) : Run TokenQueue α :=
  Run.zoom messages (fun log q => { q with messages := log }) x

theorem next_nil {q : TokenQueue} (h : q.pending = none) (hl : q.left = []) :
    next.run q = ⟨.ok (Token.endOfInput (some (place q.label q.taken))), q, []⟩ := by
  simp [next, h, hl]

end TokenQueue

instance : TokenSource TokenQueue where
  next _ := TokenQueue.next
  pushBack := TokenQueue.pushBack
  position q := some ⟨q.label, q.taken, 1⟩
  error id text position data :=
    TokenQueue.onMessages (MessageLog.error id text position none data [])
  warning id text position data :=
    discard (TokenQueue.onMessages (MessageLog.add ⟨.warning, id, text, position, none, data, []⟩))

/-! ## One of two sources -/

namespace TokenSource

variable {σ τ α : Type}

/-- Works on a source of the first kind. -/
def onLeft (x : Run σ α) (s : σ) : Outcome (σ ⊕ τ) α :=
  let inner := x s
  ⟨inner.result, .inl inner.state, inner.trace⟩

/-- Works on a source of the second kind. -/
def onRight (x : Run τ α) (s : τ) : Outcome (σ ⊕ τ) α :=
  let inner := x s
  ⟨inner.result, .inr inner.state, inner.trace⟩

/-- Works on a source of either kind. -/
def either (left : Run σ α) (right : Run τ α) : Run (σ ⊕ τ) α
  | .inl s => onLeft left s
  | .inr s => onRight right s

instance [TokenSource σ] [TokenSource τ] : TokenSource (σ ⊕ τ) where
  next rounds := either (next rounds) (next rounds)
  pushBack token := either (pushBack token) (pushBack token)
  position
    | .inl s => position s
    | .inr s => position s
  error id text place data := either (error id text place data) (error id text place data)
  warning id text place data := either (warning id text place data) (warning id text place data)

end TokenSource

end GrammarEngine
