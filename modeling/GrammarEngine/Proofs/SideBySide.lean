import GrammarEngine.Proofs.Outcomes

/-!
# Two runs side by side

Two runs from related states may come to the same: the same result, the same events, and related
states again. To show it, they are followed step by step, and the relation is what has to hold
between the steps (`Alongside`). On the way it is noted which faults may come up.

Most of the time both runs are those of one program, which then cannot tell related states apart
(`Respects`). If related states are equal ones that have some property, this says that the program
keeps the property (`Same`).

Main results:

* `Alongside.bind`, `alongside_iterate` — two chains, link by link, and two repetitions,
  step by step.
* `respects_get` — the state may be looked at, as long as what is seen is the same in
  related states.
* `respects_same_iff` — keeping a property.
-/

namespace GrammarEngine

namespace Run

variable {σ τ α β : Type}

/-- Two runs come to the same, and leave related states. If the same is a fault, it is one
of some faults. -/
structure Alongside (rel : σ → τ → Prop) (ok : Fault → Prop) (x : Run σ α) (s : σ) (y : Run τ α)
    (t : τ) : Prop where
  result : (y.run t).result = (x.run s).result
  trace : (y.run t).trace = (x.run s).trace
  states : rel (x.run s).state (y.run t).state
  faults : ∀ fault, (x.run s).result = .error fault → ok fault

variable {rel : σ → τ → Prop} {ok : Fault → Prop} {x : Run σ α} {y : Run τ α} {s : σ} {t : τ}

/-- A value is no fault. -/
theorem of_ok_eq_error {p : Prop} {a : α} {fault : Fault}
    (h : Except.ok a = Except.error fault) : p := nomatch h

/-- Returning the same value comes to the same. -/
theorem alongside_pure (a : α) (h : rel s t) : Alongside rel ok (pure a) s (pure a) t :=
  ⟨rfl, rfl, h, fun _ => of_ok_eq_error⟩

/-- So does giving up with the same fault. -/
theorem alongside_fail {fault : Fault} (hok : ok fault) (h : rel s t) :
    Alongside rel ok (fail fault : Run σ α) s (fail fault) t :=
  ⟨rfl, rfl, h, fun _ hfault => Except.error.inj hfault ▸ hok⟩

/-- The new states have to be related. -/
theorem alongside_set {s' : σ} {t' : τ} (h : rel s' t') : Alongside rel ok (set s') s (set t') t :=
  ⟨rfl, rfl, h, fun _ => of_ok_eq_error⟩

/-- And so have the changed ones. -/
theorem alongside_modify {f : σ → σ} {g : τ → τ} (h : rel (f s) (g t)) :
    Alongside rel ok (modify f) s (modify g) t :=
  ⟨rfl, rfl, h, fun _ => of_ok_eq_error⟩

/-- Less may be asked of the states afterwards, and more faults may be allowed. -/
theorem Alongside.mono {rel' : σ → τ → Prop} {ok' : Fault → Prop} (h : Alongside rel ok x s y t)
    (hrel : ∀ s t, rel s t → rel' s t) (hok : ∀ fault, ok fault → ok' fault) :
    Alongside rel' ok' x s y t :=
  ⟨h.result, h.trace, hrel _ _ h.states, fun fault hfault => hok fault (h.faults fault hfault)⟩

/-- What a run comes to is all that matters of it. -/
theorem Alongside.congr {y' : Run τ α} (h : Alongside rel ok x s y t) (hy : y'.run t = y.run t) :
    Alongside rel ok x s y' t := by
  obtain ⟨hresult, htrace, hstates, hfaults⟩ := h
  constructor
  · rw [hy]
    exact hresult
  · rw [hy]
    exact htrace
  · rw [hy]
    exact hstates
  · exact hfaults

/-- After two runs that come to the same, two chains go on with one value. What is known of a run
that returns may be used. -/
theorem Alongside.bind_returns {f : α → Run σ β} {g : α → Run τ β} (h : Alongside rel ok x s y t)
    (hrest : ∀ a s' t', rel s' t' → x.Returns s a s' → Alongside rel ok (f a) s' (g a) t') :
    Alongside rel ok (x >>= f) s (y >>= g) t := by
  obtain ⟨hresult, htrace, hstates, hfaults⟩ := h
  rcases hx : x.run s with ⟨result, s', trace⟩
  rcases hy : y.run t with ⟨result', t', trace'⟩
  rw [hx, hy] at hresult htrace hstates
  rw [hx] at hfaults
  dsimp only at hresult htrace hstates hfaults
  subst hresult htrace
  cases result' with
  | error fault =>
    constructor <;> rw [run_bind]
    · rw [run_bind, hx, hy]
    · rw [run_bind, hx, hy]
    · rw [run_bind, hx, hy]
      exact hstates
    · rw [hx]
      exact fun fault' hfault => hfaults fault' (congrArg Except.error (Except.error.inj hfault))
  | ok a =>
    obtain ⟨hresult', htrace', hstates', hfaults'⟩ := hrest a s' t' hstates ⟨_, hx⟩
    constructor <;> rw [run_bind]
    · rw [run_bind, hx, hy]
      exact hresult'
    · rw [run_bind, hx, hy]
      exact congrArg (· ++ trace') htrace'
    · rw [run_bind, hx, hy]
      exact hstates'
    · rw [hx]
      exact hfaults'

/-- **Chains** come to the same link by link. -/
theorem Alongside.bind {f : α → Run σ β} {g : α → Run τ β} (h : Alongside rel ok x s y t)
    (hrest : ∀ a s' t', rel s' t' → Alongside rel ok (f a) s' (g a) t') :
    Alongside rel ok (x >>= f) s (y >>= g) t :=
  h.bind_returns fun a s' t' hrel _ => hrest a s' t' hrel

/-- What is done after a look at the states has to come to the same. -/
theorem alongside_get_bind {f : σ → Run σ β} {g : τ → Run τ β}
    (h : Alongside rel ok (f s) s (g t) t) : Alongside rel ok (get >>= f) s (get >>= g) t := by
  obtain ⟨hresult, htrace, hstates, hfaults⟩ := h
  constructor
  · rw [run_bind, run_bind, run_get, run_get]
    exact hresult
  · rw [run_bind, run_bind, run_get, run_get]
    exact congrArg (· ++ []) htrace
  · rw [run_bind, run_bind, run_get, run_get]
    exact hstates
  · rw [run_bind, run_get]
    exact hfaults

/-- After new states were set, these are gone on from. -/
theorem alongside_set_bind {s' : σ} {t' : τ} {f : Unit → Run σ β} {g : Unit → Run τ β}
    (h : Alongside rel ok (f ()) s' (g ()) t') :
    Alongside rel ok (set s' >>= f) s (set t' >>= g) t := by
  obtain ⟨hresult, htrace, hstates, hfaults⟩ := h
  constructor
  · rw [run_bind, run_bind, run_set, run_set]
    exact hresult
  · rw [run_bind, run_bind, run_set, run_set]
    exact congrArg (· ++ []) htrace
  · rw [run_bind, run_bind, run_set, run_set]
    exact hstates
  · rw [run_bind, run_set]
    exact hfaults

/-- After a change, the changed ones are. -/
theorem alongside_modify_bind {g : σ → σ} {g' : τ → τ} {f : Unit → Run σ β} {f' : Unit → Run τ β}
    (h : Alongside rel ok (f ()) (g s) (f' ()) (g' t)) :
    Alongside rel ok (modify g >>= f) s (modify g' >>= f') t := by
  obtain ⟨hresult, htrace, hstates, hfaults⟩ := alongside_set_bind (s := s) (t := t) h
  exact ⟨hresult, htrace, hstates, hfaults⟩

/-- The same is done with the values. -/
theorem alongside_map (f : α → β) (h : Alongside rel ok x s y t) :
    Alongside rel ok (f <$> x) s (f <$> y) t := by
  obtain ⟨hresult, htrace, hstates, hfaults⟩ := h
  constructor <;> rw [run_map]
  · rw [run_map]
    exact congrArg (Except.map f) hresult
  · rw [run_map]
    exact htrace
  · rw [run_map]
    exact hstates
  · intro fault hfault
    refine hfaults fault ?_
    cases hresult' : (x.run s).result with
    | ok a =>
      rw [hresult'] at hfault
      cases hfault
    | error fault' =>
      rw [hresult'] at hfault
      exact congrArg Except.error (Except.error.inj hfault)

/-- Runs on parts of two states leave related states if whatever the parts become fits in. -/
theorem alongside_zoom {σ' τ' : Type} {part : σ' → σ} {update : σ → σ' → σ'} {part' : τ' → τ}
    {update' : τ → τ' → τ'} {rel' : σ' → τ' → Prop} {s' : σ'} {t' : τ'}
    (h : Alongside rel ok x (part s') y (part' t'))
    (hstates : ∀ s t, rel s t → rel' (update s s') (update' t t')) :
    Alongside rel' ok (zoom part update x) s' (zoom part' update' y) t' :=
  ⟨h.result, h.trace, hstates _ _ h.states, h.faults⟩

/-- What is done in any case is done on both sides. -/
theorem alongside_thenAlways {f : σ → σ} {g : τ → τ} {rel' : σ → τ → Prop}
    (h : Alongside rel ok x s y t) (hstates : ∀ s t, rel s t → rel' (f s) (g t)) :
    Alongside rel' ok (thenAlways x f) s (thenAlways y g) t :=
  ⟨h.result, h.trace, hstates _ _ h.states, h.faults⟩

/-- Steps that come to the same are repeated side by side. -/
theorem alongside_iterate {step : β → Run σ (β ⊕ α)} {step' : β → Run τ (β ⊕ α)}
    (hok : ok .exhausted) (hstep : ∀ b s t, rel s t → Alongside rel ok (step b) s (step' b) t)
    (n : Nat) (b : β) (h : rel s t) :
    Alongside rel ok (iterate step n b) s (iterate step' n b) t := by
  induction n generalizing b s t with
  | zero => exact ⟨rfl, rfl, h, fun _ hfault => Except.error.inj hfault ▸ hok⟩
  | succ n ih =>
    rw [iterate_succ, iterate_succ]
    refine (hstep b s t h).bind fun next s' t' h' => ?_
    cases next with
    | inl b' => exact ih b' h'
    | inr a => exact alongside_pure a h'

-- ---------------------------------------------------------------------------
-- Programs that cannot tell related states apart
-- ---------------------------------------------------------------------------

section Respects

variable {rel : σ → σ → Prop} {x : Run σ α}

/-- A run comes to the same from related states. -/
def Respects (rel : σ → σ → Prop) (ok : Fault → Prop) (x : Run σ α) : Prop :=
  ∀ s t, rel s t → Alongside rel ok x s x t

/-- To return a value looks at nothing. -/
theorem respects_pure (a : α) : Respects rel ok (pure a) := fun _ _ => alongside_pure a

/-- Giving up looks at nothing. -/
theorem respects_fail {fault : Fault} (hok : ok fault) : Respects rel ok (fail fault : Run σ α) :=
  fun _ _ => alongside_fail hok

/-- An event is the same from all states. -/
theorem respects_emit (event : Event) : Respects rel ok (emit event) :=
  fun _ _ h => ⟨rfl, rfl, h, fun _ => of_ok_eq_error⟩

/-- A result that is at hand comes from no state. -/
theorem respects_ofExcept {result : Except Fault α}
    (hok : ∀ fault, result = .error fault → ok fault) :
    Respects rel ok (ofExcept result) := fun _ _ h => ⟨rfl, rfl, h, hok⟩

/-- A value that has to be there is not looked for in the state. -/
theorem respects_orFail (value : Option α) {fault : Fault} (hok : ok fault) :
    Respects rel ok (orFail value fault) := by
  cases value with
  | none => exact respects_fail hok
  | some a => exact respects_pure a

/-- A change respects a relation that it preserves. -/
theorem respects_modify {f : σ → σ} (h : ∀ s t, rel s t → rel (f s) (f t)) :
    Respects rel ok (modify f) :=
  fun s t hrel => alongside_modify (h s t hrel)

/-- One respectful run may follow another. -/
theorem respects_bind {f : α → Run σ β} (hx : Respects rel ok x) (hf : ∀ a, Respects rel ok (f a)) :
    Respects rel ok (x >>= f) := fun s t h => (hx s t h).bind hf

/-- The state may be looked at, if the rest only uses what is the same in related states. -/
theorem respects_get {f : σ → Run σ β} (hsame : ∀ s t, rel s t → f t = f s)
    (hf : ∀ s t, rel s t → Respects rel ok (f s)) : Respects rel ok (get >>= f) := by
  refine fun s t h => alongside_get_bind ?_
  rw [hsame s t h]
  exact hf s t h s t h

/-- The value may be dropped. -/
theorem respects_discard (hx : Respects rel ok x) : Respects rel ok (discard x) :=
  fun s t h => alongside_map (fun _ => ()) (hx s t h)

/-- Respectful work may be done for one item after the other. -/
theorem respects_forM {f : β → Run σ Unit} {items : List β}
    (hf : ∀ b ∈ items, Respects rel ok (f b)) : Respects rel ok (items.forM f) := by
  induction items with
  | nil => exact respects_pure ()
  | cons b rest ih =>
    rw [List.forall_mem_cons] at hf
    exact respects_bind hf.1 fun _ => ih hf.2

/-- A respectful step may be repeated. -/
theorem respects_repeated {step : Run σ (Option α)} (hok : ok .exhausted)
    (hstep : Respects rel ok step) (n : Nat) : Respects rel ok (repeated step n) := by
  induction n with
  | zero => exact fun _ _ h => ⟨rfl, rfl, h, fun _ hfault => Except.error.inj hfault ▸ hok⟩
  | succ n ih =>
    rw [repeated_succ]
    refine respects_bind hstep fun found => ?_
    cases found with
    | none => exact ih
    | some a => exact respects_pure a

/-- One state that has a property. -/
def Same (inv : σ → Prop) (s t : σ) : Prop := t = s ∧ inv s

/-- A run keeps a property of the state, and comes to some faults only. -/
theorem respects_same_iff {inv : σ → Prop} : Respects (Same inv) ok x ↔
    ∀ s, inv s → x.Leaves s fun r t => inv t ∧ ∀ fault, r = .error fault → ok fault := by
  constructor
  · intro h s hinv
    obtain ⟨-, -, ⟨-, hinv'⟩, hfaults⟩ := h s s ⟨rfl, hinv⟩
    exact ⟨hinv', hfaults⟩
  · rintro h s _ ⟨rfl, hinv⟩
    obtain ⟨hinv', hfaults⟩ := h _ hinv
    exact ⟨rfl, rfl, ⟨rfl, hinv'⟩, hfaults⟩

end Respects

/-- Two runs that come to the same, in the same state, are equal. -/
theorem Alongside.run_eq {inv : σ → Prop} {x y : Run σ α} {s t : σ}
    (h : Alongside (Same inv) ok x s y t) : y.run t = x.run s := by
  obtain ⟨hresult, htrace, ⟨hstate, -⟩, -⟩ := h
  rcases hx : x.run s with ⟨result, s', trace⟩
  rcases hy : y.run t with ⟨result', t', trace'⟩
  rw [hx, hy] at hresult htrace hstate
  rw [Outcome.mk.injEq]
  exact ⟨hresult, hstate, htrace⟩

end Run

end GrammarEngine
