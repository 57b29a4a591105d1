import GrammarEngine.Run

/-!
# Runs that return

`x.Returns s a s'` says that a run from `s` hands on `a` and leaves `s'`; the events are left out. A
proof about all runs of a program that return takes the program apart with the equivalences of this
module, one for each way to put runs together.

Main results:

* `returns_bind` — a chain of runs returns exactly if each of them does.
* `Returns.iterate_invariant` — what every round keeps holds when the last one begins.
-/

namespace GrammarEngine

namespace Run

variable {σ τ α β : Type}

/-- A run hands on a value and leaves a state. -/
def Returns (x : Run σ α) (s : σ) (a : α) (s' : σ) : Prop := ∃ trace, x.run s = ⟨.ok a, s', trace⟩

/-- A chain returns if both its runs do, one after the other. -/
theorem returns_bind {x : Run σ α} {f : α → Run σ β} {s s' : σ} {b : β} :
    (x >>= f).Returns s b s' ↔ ∃ a s₁, x.Returns s a s₁ ∧ (f a).Returns s₁ b s' := by
  constructor
  · rintro ⟨trace, h⟩
    obtain ⟨a, s₁, before, after, hx, hf, -⟩ := run_bind_eq_ok.mp h
    exact ⟨a, s₁, ⟨before, hx⟩, ⟨after, hf⟩⟩
  · rintro ⟨a, s₁, ⟨before, hx⟩, ⟨after, hf⟩⟩
    exact ⟨after ++ before, run_bind_eq_ok.mpr ⟨a, s₁, before, after, hx, hf, rfl⟩⟩

/-- A run returns in one way only. -/
theorem Returns.unique {x : Run σ α} {s s₁ s₂ : σ} {a₁ a₂ : α} (h₁ : x.Returns s a₁ s₁)
    (h₂ : x.Returns s a₂ s₂) : a₁ = a₂ ∧ s₁ = s₂ := by
  obtain ⟨trace₁, h₁⟩ := h₁
  obtain ⟨trace₂, h₂⟩ := h₂
  rw [h₁, Outcome.mk.injEq, Except.ok.injEq] at h₂
  exact ⟨h₂.1, h₂.2.1⟩

/-- Whether a given run returns can be found out by running it. -/
theorem returns_of_result {x : Run σ α} {s : σ} {a : α} (h : (x.run s).result.toOption = some a) :
    x.Returns s a (x.run s).state := by
  refine ⟨(x.run s).trace, ?_⟩
  cases hrun : x.run s with
  | mk result s' trace =>
    rw [hrun] at h
    cases result with
    | error fault => cases h
    | ok b => rw [Option.some.inj h]

@[simp] theorem returns_pure {a a' : α} {s s' : σ} :
    (pure a : Run σ α).Returns s a' s' ↔ a = a' ∧ s = s' := by
  simp [Returns]

@[simp] theorem returns_ret {a a' : α} {s s' : σ} : (ret a).Returns s a' s' ↔ a = a' ∧ s = s' :=
  returns_pure

@[simp] theorem returns_get {s t s' : σ} : (get : Run σ σ).Returns s t s' ↔ s = t ∧ s = s' := by
  simp [Returns]

@[simp] theorem returns_set {t s s' : σ} {u : Unit} : (set t).Returns s u s' ↔ t = s' := by
  simp [Returns]

@[simp] theorem returns_modify {f : σ → σ} {s s' : σ} {u : Unit} :
    (modify f).Returns s u s' ↔ f s = s' := by
  simp [Returns]

@[simp] theorem returns_emit {event : Event} {s s' : σ} {u : Unit} :
    (emit event).Returns s u s' ↔ s = s' := by
  simp [Returns]

@[simp] theorem not_returns_fail {fault : Fault} {s s' : σ} {a : α} :
    ¬ (fail fault : Run σ α).Returns s a s' := by
  simp [Returns]

@[simp] theorem not_returns_refuse {cause : GrammarFault} {s s' : σ} {a : α} :
    ¬ (refuse cause : Run σ α).Returns s a s' := by
  simp [Returns]

@[simp] theorem returns_ofExcept {x : Except Fault α} {s s' : σ} {a : α} :
    (ofExcept x).Returns s a s' ↔ x = .ok a ∧ s = s' := by
  simp [Returns, ofExcept, run]

@[simp] theorem returns_orFail {x : Option α} {fault : Fault} {s s' : σ} {a : α} :
    (orFail x fault).Returns s a s' ↔ x = some a ∧ s = s' := by
  cases x with
  | none => simp [orFail]
  | some b => simp [orFail]

@[simp] theorem returns_map {f : α → β} {x : Run σ α} {s s' : σ} {b : β} :
    (f <$> x).Returns s b s' ↔ ∃ a, x.Returns s a s' ∧ f a = b := by
  rw [← bind_pure_comp, returns_bind]
  simp only [returns_pure]
  constructor
  · rintro ⟨a, s₁, hx, hf, rfl⟩
    exact ⟨a, hx, hf⟩
  · rintro ⟨a, hx, hf⟩
    exact ⟨a, s', hx, hf, rfl⟩

@[simp] theorem returns_discard {x : Run σ α} {s s' : σ} {u : Unit} :
    (discard x).Returns s u s' ↔ ∃ a, x.Returns s a s' := by
  show ((fun _ => ()) <$> x).Returns s u s' ↔ _
  rw [returns_map]
  exact exists_congr fun a => and_iff_left rfl

/-- Work on a part returns if it does on that part. -/
theorem returns_zoom {part : σ → τ} {update : τ → σ → σ} {x : Run τ α} {s s' : σ} {a : α} :
    (zoom part update x).Returns s a s' ↔ ∃ t, x.Returns (part s) a t ∧ update t s = s' := by
  simp only [Returns, zoom, run, Outcome.mk.injEq]
  constructor
  · rintro ⟨trace, hresult, hstate, htrace⟩
    exact ⟨(x (part s)).state, ⟨trace, by rw [← hresult, ← htrace]⟩, hstate⟩
  · rintro ⟨t, ⟨trace, hx⟩, rfl⟩
    rw [hx]
    exact ⟨trace, rfl, rfl, rfl⟩

/-- What is always done in the end is done to where a run returns. -/
theorem returns_thenAlways {x : Run σ α} {f : σ → σ} {s s' : σ} {a : α} :
    (thenAlways x f).Returns s a s' ↔ ∃ t, x.Returns s a t ∧ f t = s' := by
  simp only [Returns, thenAlways, run, Outcome.mk.injEq]
  constructor
  · rintro ⟨trace, hresult, hstate, htrace⟩
    exact ⟨(x s).state, ⟨trace, by rw [← hresult, ← htrace]⟩, hstate⟩
  · rintro ⟨t, ⟨trace, hx⟩, rfl⟩
    rw [hx]
    exact ⟨trace, rfl, rfl, rfl⟩

/-! ## Repetition -/

/-- A run that is bounded by a number of rounds returns, if it may take enough of them. -/
def Yields (x : Nat → Run σ α) (s : σ) (a : α) (s' : σ) : Prop :=
  ∃ n, ∀ m, n ≤ m → (x m).Returns s a s'

/-- An invariant of the rounds that hand on holds when the last round begins. -/
theorem Returns.iterate_invariant {step : β → Run σ (β ⊕ α)} {n : Nat} {b : β} {s s' : σ} {a : α}
    (h : (iterate step n b).Returns s a s') (inv : β → σ → Prop) (hinit : inv b s)
    (hstep : ∀ c t c' t', inv c t → (step c).Returns t (.inl c') t' → inv c' t') :
    ∃ b' t, inv b' t ∧ (step b').Returns t (.inr a) s' := by
  induction n generalizing b s with
  | zero =>
    obtain ⟨trace, h⟩ := h
    cases h
  | succ n ih =>
    rw [iterate_succ, returns_bind] at h
    obtain ⟨next, s₁, hfirst, hrest⟩ := h
    cases next with
    | inl b₁ => exact ih hrest (hstep b s b₁ s₁ hinit hfirst)
    | inr a' =>
      obtain ⟨rfl, rfl⟩ := returns_pure.mp hrest
      exact ⟨b, s, hinit, hfirst⟩

end Run

end GrammarEngine
