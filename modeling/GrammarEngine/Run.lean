import GrammarEngine.Event

/-!
# Runs

A run is a computation on a state of type `σ`. It ends with a value or a fault; either way it
leaves a state, so what happened before a fault is not undone, and it leaves the events that
happened meanwhile.

Main results:

* the laws of a monad (`LawfulMonad`),
* `run_bind_eq_ok` — a chain of runs returns if each of them does,
* `iterate_succ`, `repeated_succ` — repeating a step once more means making it once in front.
-/

namespace GrammarEngine

/-- What a run leaves: a value or a fault, a state, and the events, the latest first. -/
structure Outcome (σ α : Type) where
  result : Except Fault α
  state : σ
  trace : List Event

/-- A computation on a state that may end with a fault. -/
def Run (σ α : Type) : Type := σ → Outcome σ α

namespace Run

variable {σ τ α β : Type}

/-- Runs a computation on a state. -/
def run (x : Run σ α) (s : σ) : Outcome σ α := x s

/-- Hands on a value. -/
def ret (a : α) : Run σ α := fun s => ⟨.ok a, s, []⟩

/-- Goes on with the value of a run, unless that ended with a fault. -/
def andThen (x : Run σ α) (f : α → Run σ β) : Run σ β := fun s =>
  match x s with
  | ⟨.ok a, s', trace⟩ =>
    let after := f a s'
    ⟨after.result, after.state, after.trace ++ trace⟩
  | ⟨.error fault, s', trace⟩ => ⟨.error fault, s', trace⟩

instance : Monad (Run σ) where
  pure := ret
  bind := andThen

@[simp] theorem run_pure (a : α) (s : σ) : (pure a : Run σ α).run s = ⟨.ok a, s, []⟩ := rfl

@[simp] theorem run_bind (x : Run σ α) (f : α → Run σ β) (s : σ) :
    (x >>= f).run s =
      match x.run s with
      | ⟨.ok a, s', trace⟩ =>
        ⟨((f a).run s').result, ((f a).run s').state, ((f a).run s').trace ++ trace⟩
      | ⟨.error fault, s', trace⟩ => ⟨.error fault, s', trace⟩ := rfl

/-- A chain of runs returns if each of them does. -/
theorem run_bind_eq_ok {x : Run σ α} {f : α → Run σ β} {s s' : σ} {b : β} {trace : List Event} :
    (x >>= f).run s = ⟨.ok b, s', trace⟩ ↔
      ∃ a s₁ before after, x.run s = ⟨.ok a, s₁, before⟩ ∧ (f a).run s₁ = ⟨.ok b, s', after⟩ ∧
        trace = after ++ before := by
  rw [run_bind]
  constructor
  · intro h
    split at h
    · next a s₁ before hx =>
      rw [Outcome.mk.injEq] at h
      obtain ⟨hr, hs, ht⟩ := h
      exact ⟨a, s₁, before, ((f a).run s₁).trace, hx, by rw [← hr, ← hs], ht.symm⟩
    · cases h
  · rintro ⟨a, s₁, before, after, hx, hf, rfl⟩
    rw [hx]
    simp only [hf]

private theorem run_id_map (x : Run σ α) : id <$> x = x := by
  funext s
  show andThen x (fun a => ret (id a)) s = x s
  unfold andThen ret
  rcases x s with ⟨r | r, s', t⟩ <;> simp

private theorem run_pure_bind (a : α) (f : α → Run σ β) : (pure a >>= f : Run σ β) = f a := by
  funext s
  show andThen (ret a) f s = f a s
  simp [andThen, ret]

private theorem run_bind_assoc {γ : Type} (x : Run σ α) (f : α → Run σ β) (g : β → Run σ γ) :
    x >>= f >>= g = x >>= fun a => f a >>= g := by
  funext s
  show andThen (andThen x f) g s = andThen x (fun a => andThen (f a) g) s
  unfold andThen
  rcases x s with ⟨r | a, s', t⟩
  · rfl
  · simp only
    rcases f a s' with ⟨r | b, s'', t'⟩ <;> simp

instance : LawfulMonad (Run σ) :=
  LawfulMonad.mk' (Run σ) run_id_map run_pure_bind run_bind_assoc

/-- The state. -/
def get : Run σ σ := fun s => ⟨.ok s, s, []⟩

/-- Replaces the state. -/
def set (s : σ) : Run σ Unit := fun _ => ⟨.ok (), s, []⟩

/-- Changes the state. -/
def modify (f : σ → σ) : Run σ Unit := fun s => ⟨.ok (), f s, []⟩

/-- Ends with a fault. -/
def fail (fault : Fault) : Run σ α := fun s => ⟨.error fault, s, []⟩

/-- Ends with a fault of the grammar. -/
def refuse (cause : GrammarFault) : Run σ α := fail (.grammar cause)

/-- Tells that something happened. -/
def emit (event : Event) : Run σ Unit := fun s => ⟨.ok (), s, [event]⟩

/-- A result that does not depend on the state. -/
def ofExcept (result : Except Fault α) : Run σ α := fun s => ⟨result, s, []⟩

/-- A value that has to be there. -/
def orFail (value : Option α) (fault : Fault) : Run σ α :=
  match value with
  | some a => ret a
  | none => fail fault

/-- Runs a computation on a part of the state. -/
def zoom (part : σ → τ) (update : τ → σ → σ) (x : Run τ α) : Run σ α := fun s =>
  let inner := x (part s)
  ⟨inner.result, update inner.state s, inner.trace⟩

/-- Runs a computation and changes the state afterwards, also after a fault. -/
def thenAlways (x : Run σ α) (f : σ → σ) : Run σ α := fun s =>
  let inner := x s
  ⟨inner.result, f inner.state, inner.trace⟩

@[simp] theorem run_map (f : α → β) (x : Run σ α) (s : σ) :
    (f <$> x).run s = ⟨(x.run s).result.map f, (x.run s).state, (x.run s).trace⟩ := by
  show andThen x (fun a => ret (f a)) s = _
  unfold andThen ret run
  rcases x s with ⟨r | a, s', t⟩ <;> simp [Except.map]

@[simp] theorem run_get (s : σ) : (get : Run σ σ).run s = ⟨.ok s, s, []⟩ := rfl

@[simp] theorem run_set (s' s : σ) : (set s').run s = ⟨.ok (), s', []⟩ := rfl

@[simp] theorem run_modify (f : σ → σ) (s : σ) : (modify f).run s = ⟨.ok (), f s, []⟩ := rfl

@[simp] theorem run_fail (fault : Fault) (s : σ) :
    (fail fault : Run σ α).run s = ⟨.error fault, s, []⟩ := rfl

@[simp] theorem run_refuse (cause : GrammarFault) (s : σ) :
    (refuse cause : Run σ α).run s = ⟨.error (.grammar cause), s, []⟩ := rfl

@[simp] theorem run_emit (event : Event) (s : σ) : (emit event).run s = ⟨.ok (), s, [event]⟩ := rfl

/-! ## Repetition -/

/-- Repeats a step from a value and a state on, at most `n` times, until it ends. A step either
hands on a value for the next one, or ends with a result. `trace` holds the events so far. -/
def iterateFrom (step : β → Run σ (β ⊕ α)) : Nat → β → σ → List Event → Outcome σ α
  | 0, _, s, trace => ⟨.error .exhausted, s, trace⟩
  | n + 1, b, s, trace =>
    match step b s with
    | ⟨.ok (.inr a), s', new⟩ => ⟨.ok a, s', new ++ trace⟩
    | ⟨.ok (.inl b'), s', new⟩ => iterateFrom step n b' s' (new ++ trace)
    | ⟨.error fault, s', new⟩ => ⟨.error fault, s', new ++ trace⟩

/-- Repeats a step, at most `n` times, until it ends. -/
def iterate (step : β → Run σ (β ⊕ α)) (n : Nat) (b : β) : Run σ α := fun s =>
  iterateFrom step n b s []

/-- The events so far only stand below the new ones. -/
theorem iterateFrom_trace (step : β → Run σ (β ⊕ α)) (n : Nat) (b : β) (s : σ)
    (trace : List Event) :
    iterateFrom step n b s trace =
      { iterateFrom step n b s [] with trace := (iterateFrom step n b s []).trace ++ trace } := by
  induction n generalizing b s trace with
  | zero => rfl
  | succ n ih =>
    unfold iterateFrom
    rcases step b s with ⟨fault | (b' | a), s', new⟩
    · simp
    · simp only [List.append_nil]
      rw [ih b' s' (new ++ trace), ih b' s' new]
      simp
    · simp

theorem iterate_succ (step : β → Run σ (β ⊕ α)) (n : Nat) (b : β) :
    iterate step (n + 1) b =
      step b >>= fun | .inr a => pure a | .inl b' => iterate step n b' := by
  funext s
  show iterateFrom step (n + 1) b s [] = andThen (step b) _ s
  unfold iterateFrom andThen
  rcases step b s with ⟨fault | (b' | a), s', new⟩
  · simp
  · simp only [List.append_nil]
    rw [iterateFrom_trace]
    rfl
  · show _ = _
    simp [pure, ret]

/-- Repeats a step, at most `n` times, until it yields a result. -/
def repeated (step : Run σ (Option α)) (n : Nat) : Run σ α :=
  iterate (fun _ : Unit => do
    match ← step with
    | some a => pure (.inr a)
    | none => pure (.inl ())) n ()

theorem repeated_succ (step : Run σ (Option α)) (n : Nat) :
    repeated step (n + 1) =
      step >>= fun | some a => pure a | none => repeated step n := by
  unfold repeated
  rw [iterate_succ, bind_assoc]
  congr 1
  funext a
  cases a <;> simp only [pure_bind]

end Run

end GrammarEngine
