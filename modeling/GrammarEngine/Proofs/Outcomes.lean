import GrammarEngine.Proofs.Returns

/-!
# What runs leave

A run leaves a result, be it a value or a fault, and a state. `x.Leaves s Q` says that what a run
from `s` leaves has the property `Q`. Where a proof has to follow the faults of a program, too, it
takes the program apart with the equivalences of this module.

A run that is bounded by a number of rounds has come to an end if more rounds make no
difference (`Ends`). Repeating a step comes to an end if each time something grows smaller
that cannot do so for ever.

Main results:

* `leaves_bind` — what a chain of runs leaves.
* `returns_repeated` — a step that is repeated returns in the last repetition.
* `repeated_leaves` — a step that is repeated often enough.
* `ends_repeated` — a step that may be repeated as often as it likes.
* `stable_iterate` — more repetitions do not change what a step has come to.
* `iterate_exhausted` — a step that always hands on uses up any number of repetitions.
-/

namespace GrammarEngine

/-- A fault is an error that was reported under an identifier, with these words. -/
def Fault.Tells (fault : Fault) (id text : String) : Prop :=
  ∃ m : Message, fault = .parse m ∧ m.id = id ∧ m.text = text

/-- An error reported is another fault than that of being cut short. -/
theorem Fault.Tells.ne_exhausted {fault : Fault} {id text : String} (h : fault.Tells id text) :
    fault ≠ .exhausted := by
  obtain ⟨m, rfl, -⟩ := h
  exact nofun

namespace Run

variable {σ τ α β : Type}

/-- What a run leaves has a property. -/
def Leaves (x : Run σ α) (s : σ) (Q : Except Fault α → σ → Prop) : Prop :=
  Q (x.run s).result (x.run s).state

variable {x : Run σ α} {f : α → Run σ β} {s : σ} {Q : Except Fault α → σ → Prop}
  {R : Except Fault β → σ → Prop}

/-- What is said of the result of the first run of a chain. -/
def Continues (f : α → Run σ β) (R : Except Fault β → σ → Prop) : Except Fault α → σ → Prop
  | .ok a, t => (f a).Leaves t R
  | .error fault, t => R (.error fault) t

@[simp] theorem continues_ok {a : α} : Continues f R (.ok a) s ↔ (f a).Leaves s R := Iff.rfl

@[simp] theorem continues_error {fault : Fault} :
    Continues f R (.error fault) s ↔ R (.error fault) s := Iff.rfl

/-- A chain of runs leaves what its last one leaves, or else the fault of the one before. -/
theorem leaves_bind : (x >>= f).Leaves s R ↔ x.Leaves s (Continues f R) := by
  unfold Leaves
  rw [run_bind]
  rcases x.run s with ⟨fault | a, t, trace⟩ <;> rfl

/-- Less may be said of what a run leaves. -/
theorem Leaves.mono {Q' : Except Fault α → σ → Prop}
    (h : x.Leaves s Q) (hmono : ∀ r t, Q r t → Q' r t) : x.Leaves s Q' := hmono _ _ h

/-- What a run is known to leave may be used to say what follows. -/
theorem Leaves.bind (h : x.Leaves s Q) (hok : ∀ a t, Q (.ok a) t → (f a).Leaves t R)
    (herror : ∀ fault t, Q (.error fault) t → R (.error fault) t) : (x >>= f).Leaves s R := by
  refine leaves_bind.mpr (h.mono fun r t hr => ?_)
  cases r with
  | ok a => exact hok a t hr
  | error fault => exact herror fault t hr

/-- Where a run returns, it leaves what it returns with. -/
theorem leaves_iff_of_returns {a : α} {s' : σ} (h : x.Returns s a s') :
    x.Leaves s Q ↔ Q (.ok a) s' := by
  obtain ⟨trace, h⟩ := h
  unfold Leaves
  rw [h]

/-- A run of which it is known that it leaves a value returns that value. -/
theorem Leaves.returns {a : α} {P : σ → Prop} (h : x.Leaves s fun r t => r = .ok a ∧ P t) :
    ∃ t, x.Returns s a t ∧ P t := by
  obtain ⟨hresult, hstate⟩ := h
  refine ⟨(x.run s).state, ⟨(x.run s).trace, ?_⟩, hstate⟩
  rw [← hresult]

/-- And what is known of all that it leaves is known of that value. -/
theorem Leaves.of_returns {a : α} {s' : σ}
    (h : x.Leaves s Q) (hreturns : x.Returns s a s') : Q (.ok a) s' :=
  (leaves_iff_of_returns hreturns).mp h

@[simp] theorem leaves_pure {a : α} : (pure a : Run σ α).Leaves s Q ↔ Q (.ok a) s := Iff.rfl

@[simp] theorem leaves_get {Q : Except Fault σ → σ → Prop} :
    (get : Run σ σ).Leaves s Q ↔ Q (.ok s) s := Iff.rfl

@[simp] theorem leaves_set {t : σ} {Q : Except Fault Unit → σ → Prop} :
    (set t).Leaves s Q ↔ Q (.ok ()) t := Iff.rfl

@[simp] theorem leaves_modify {g : σ → σ} {Q : Except Fault Unit → σ → Prop} :
    (modify g).Leaves s Q ↔ Q (.ok ()) (g s) := Iff.rfl

@[simp] theorem leaves_emit {event : Event} {Q : Except Fault Unit → σ → Prop} :
    (emit event).Leaves s Q ↔ Q (.ok ()) s := Iff.rfl

@[simp] theorem leaves_fail {fault : Fault} :
    (fail fault : Run σ α).Leaves s Q ↔ Q (.error fault) s := Iff.rfl

@[simp] theorem leaves_refuse {cause : GrammarFault} :
    (refuse cause : Run σ α).Leaves s Q ↔ Q (.error (.grammar cause)) s := Iff.rfl

/-- A value that has to be there is the result, and otherwise the fault is. -/
theorem leaves_orFail {value : Option α} {fault : Fault} : (orFail value fault).Leaves s Q ↔
    Q (match value with | some a => .ok a | none => .error fault) s := by
  cases value <;> rfl

/-- Without its value a run leaves the same state. -/
theorem leaves_discard {Q : Except Fault Unit → σ → Prop} : (discard x).Leaves s Q ↔
    x.Leaves s fun r t => Q (r.map fun _ => ()) t := by
  show ((fun _ => ()) <$> x).Leaves s Q ↔ _
  unfold Leaves
  rw [run_map]

/-- So it does with another value in its place. -/
theorem leaves_then_pure {b : β} : (x >>= fun _ => pure b).Leaves s R ↔
    x.Leaves s fun r t => R (r.map fun _ => b) t := by
  rw [leaves_bind]
  unfold Leaves
  cases (x.run s).result <;> exact Iff.rfl

/-- Looking at the state goes on from the same state. -/
theorem leaves_get_bind {f : σ → Run σ β} : (get >>= f).Leaves s R ↔ (f s).Leaves s R := leaves_bind

/-- After a change it is the changed state that is gone on from. -/
theorem leaves_modify_bind {g : σ → σ} {f : Unit → Run σ β} :
    (modify g >>= f).Leaves s R ↔ (f ()).Leaves (g s) R := leaves_bind

/-- Leaving an event behind does not change the state. -/
theorem leaves_emit_bind {event : Event} {f : Unit → Run σ β} :
    (emit event >>= f).Leaves s R ↔ (f ()).Leaves s R := leaves_bind

/-- Work on a part leaves the whole with the part put back. -/
theorem leaves_zoom {part : σ → τ} {update : τ → σ → σ} {x : Run τ α} :
    (zoom part update x).Leaves s Q ↔ x.Leaves (part s) fun r t => Q r (update t s) := Iff.rfl

/-- A run ends with a fault. -/
def Fails (x : Run σ α) (s : σ) (fault : Fault) : Prop := x.Leaves s fun r _ => r = .error fault

/-- What follows a fault is not done. -/
theorem Fails.bind {fault : Fault} (h : x.Fails s fault) (f : α → Run σ β) :
    (x >>= f).Fails s fault := by
  refine leaves_bind.mpr (h.mono fun r t hr => ?_)
  rw [hr]
  rfl

/-- A chain fails where its second run does. -/
theorem Returns.bind_fails {fault : Fault} {a : α} {s' : σ}
    (hx : x.Returns s a s') (h : (f a).Fails s' fault) :
    (x >>= f).Fails s fault := leaves_bind.mpr ((leaves_iff_of_returns hx).mpr h)

/-- After a run that returns, the result of a chain is that of its second run. -/
theorem Returns.result_bind {a : α} {s' : σ} (hx : x.Returns s a s') :
    ((x >>= f).run s).result = ((f a).run s').result := by
  have hleaves : (x >>= f).Leaves s fun r _ => r = ((f a).run s').result :=
    leaves_bind.mpr ((leaves_iff_of_returns hx).mpr rfl)
  exact hleaves

/-- A fault is not dropped with the value. -/
theorem Fails.discard {fault : Fault} (h : x.Fails s fault) : (discard x).Fails s fault :=
  leaves_discard.mpr (h.mono fun r t hr => by rw [hr]; rfl)

/-! ## Invariants of runs -/

/-- A run keeps a property of the state, whether it returns or not. -/
def Keeps (inv : σ → Prop) (x : Run σ α) : Prop := ∀ s, inv s → x.Leaves s fun _ t => inv t

variable {inv : σ → Prop}

/-- To return a value keeps any property. -/
theorem keeps_pure (a : α) : Keeps inv (pure a) := fun _ h => h

/-- So does giving up. -/
theorem keeps_fail (fault : Fault) : Keeps inv (fail fault : Run σ α) := fun _ h => h

/-- A chain keeps what both of its runs keep. -/
theorem keeps_bind (hx : Keeps inv x) (hf : ∀ a, Keeps inv (f a)) : Keeps inv (x >>= f) :=
  fun s h => (hx s h).bind (fun a t ht => hf a t ht) fun _ _ ht => ht

/-- What is done with the state may depend on its having the property. -/
theorem keeps_get_bind {f : σ → Run σ β} (hf : ∀ s, inv s → (f s).Leaves s fun _ t => inv t) :
    Keeps inv (get >>= f) := fun s h => leaves_get_bind.mpr (hf s h)

/-- A change keeps what it keeps of every state. -/
theorem keeps_modify {g : σ → σ} (hg : ∀ s, inv s → inv (g s)) : Keeps inv (modify g) := hg

/-- What becomes of the value does not matter. -/
theorem keeps_discard (hx : Keeps inv x) : Keeps inv (discard x) :=
  fun s h => leaves_discard.mpr (hx s h)

/-! ## Repetition -/

/-- What every step keeps, their repetition does. -/
theorem keeps_iterate {step : β → Run σ (β ⊕ α)}
    (hstep : ∀ b, Keeps inv (step b)) (n : Nat) (b : β) : Keeps inv (iterate step n b) := by
  induction n generalizing b with
  | zero => exact fun _ h => h
  | succ n ih =>
    rw [iterate_succ]
    refine keeps_bind (hstep b) fun next => ?_
    cases next with
    | inl b' => exact ih b'
    | inr a => exact keeps_pure a

/-- **One repetition.** It stops with a value or a fault, or the step is repeated from where it
led. -/
theorem run_repeated_succ (step : Run σ (Option α)) (n : Nat) (s : σ) :
    (repeated step (n + 1)).run s =
      match step.run s with
      | ⟨.ok (some a), t, trace⟩ => ⟨.ok a, t, trace⟩
      | ⟨.ok none, t, trace⟩ =>
        ⟨((repeated step n).run t).result, ((repeated step n).run t).state,
          ((repeated step n).run t).trace ++ trace⟩
      | ⟨.error fault, t, trace⟩ => ⟨.error fault, t, trace⟩ := by
  rw [repeated_succ, run_bind]
  rcases step.run s with ⟨fault | (_ | a), t, trace⟩ <;> simp

/-- A repeated step that returns does so in its last repetition, and the ones before
have handed on. -/
theorem returns_repeated {step : Run σ (Option α)} {n : Nat} {a : α} {s' : σ}
    (h : (repeated step n).Returns s a s') :
    ∃ k, ((repeated step k).run s).result = .error .exhausted ∧
      step.Returns ((repeated step k).run s).state (some a) s' := by
  induction n generalizing s with
  | zero =>
    obtain ⟨trace, h⟩ := h
    cases h
  | succ n ih =>
    rw [repeated_succ, returns_bind] at h
    obtain ⟨found, t, hstep, hrest⟩ := h
    cases found with
    | none =>
      obtain ⟨k, hexhausted, hlast⟩ := ih hrest
      obtain ⟨trace, hstep⟩ := hstep
      refine ⟨k + 1, ?_⟩
      rw [run_repeated_succ, hstep]
      exact ⟨hexhausted, hlast⟩
    | some a' =>
      obtain ⟨rfl, rfl⟩ := returns_pure.mp hrest
      exact ⟨0, rfl, hstep⟩

/-- A step is repeated at most so often as a number says that each repetition makes smaller. -/
theorem repeated_leaves {step : Run σ (Option α)} (size : σ → Nat) (inv : σ → Prop) {n : Nat}
    (hsize : size s < n) (hinv : inv s) (hstep : ∀ t, inv t → step.Leaves t fun r t' =>
      match r with
      | .ok (some a) => Q (.ok a) t'
      | .ok none => inv t' ∧ size t' < size t
      | .error fault => Q (.error fault) t') : (repeated step n).Leaves s Q := by
  induction n generalizing s with
  | zero => exact absurd hsize (Nat.not_lt_zero _)
  | succ n ih =>
    rw [repeated_succ]
    refine (hstep s hinv).bind (fun found t h => ?_) fun fault t h => h
    cases found with
    | some a => exact h
    | none => exact ih (Nat.lt_of_lt_of_le h.2 (Nat.le_of_lt_succ hsize)) h.1

/-- What every repetition keeps is there whenever a repeated step stops, also if the
repetitions are used up. -/
theorem repeated_keeps {step : Run σ (Option α)}
    (inv : σ → Prop) (hstep : ∀ t, inv t → step.Leaves t fun r t' =>
      match r with
      | .ok (some a) => Q (.ok a) t'
      | .ok none => inv t'
      | .error fault => Q (.error fault) t')
    (hstop : ∀ t, inv t → Q (.error .exhausted) t) (hinv : inv s) (n : Nat) :
        (repeated step n).Leaves s Q := by
  induction n generalizing s with
  | zero => exact hstop s hinv
  | succ n ih =>
    rw [repeated_succ]
    refine (hstep s hinv).bind (fun found t h => ?_) fun fault t h => h
    cases found with
    | some a => exact h
    | none => exact ih h

/-- A run that is bounded by a number of rounds comes to an end, if it may take enough of them. -/
structure Ends (x : Nat → Run σ α) (s : σ) (o : Outcome σ α) : Prop where
  finished : o.result ≠ .error .exhausted
  enough : ∃ n, ∀ m, n ≤ m → (x m).run s = o

/-- A run comes to one end only. -/
theorem Ends.unique {x : Nat → Run σ α} {o o' : Outcome σ α}
    (h : Ends x s o) (h' : Ends x s o') : o = o' := by
  obtain ⟨-, n, hn⟩ := h
  obtain ⟨-, m, hm⟩ := h'
  rw [← hn (max n m) (Nat.le_max_left ..), hm (max n m) (Nat.le_max_right ..)]

/-- A step that is repeated comes to an end if each repetition makes something smaller that cannot
grow smaller for ever. -/
theorem ends_repeated {step : Run σ (Option α)} {less : σ → σ → Prop}
    (hless : WellFounded less) (inv : σ → Prop) (hstep : ∀ t, inv t → step.Leaves t fun r t' =>
      match r with
      | .ok (some a) => Q (.ok a) t'
      | .ok none => inv t' ∧ less t' t
      | .error fault => fault ≠ .exhausted ∧ Q (.error fault) t')
    (hinv : inv s) : ∃ o, Ends (repeated step) s o ∧ Q o.result o.state := by
  induction s using hless.induction with
  | _ s ih =>
    have hleaves := hstep s hinv
    unfold Leaves at hleaves
    cases hrun : step.run s with
    | mk result t trace =>
      rw [hrun] at hleaves
      match result, hrun, hleaves with
      | .ok (some a), hrun, hleaves =>
        refine ⟨⟨.ok a, t, trace⟩, ⟨nofun, 1, fun m hm => ?_⟩, hleaves⟩
        obtain ⟨k, rfl⟩ := Nat.exists_eq_add_of_le' hm
        rw [run_repeated_succ, hrun]
      | .error fault, hrun, hleaves =>
        refine ⟨⟨.error fault, t, trace⟩,
          ⟨fun h => hleaves.1 (Except.error.inj h), 1, fun m hm => ?_⟩, hleaves.2⟩
        obtain ⟨k, rfl⟩ := Nat.exists_eq_add_of_le' hm
        rw [run_repeated_succ, hrun]
      | .ok none, hrun, hleaves =>
        obtain ⟨o, ⟨hfinished, n, hn⟩, hQ⟩ := ih t hleaves.2 hleaves.1
        refine ⟨⟨o.result, o.state, o.trace ++ trace⟩, ⟨hfinished, n + 1, fun m hm => ?_⟩, hQ⟩
        obtain ⟨k, rfl⟩ := Nat.exists_eq_add_of_le' (Nat.le_of_add_left_le hm)
        rw [run_repeated_succ, hrun]
        dsimp only
        rw [hn k (by omega)]

/-! ## More rounds -/

/-- More rounds never change what a run has come to. -/
def Stable (x : Nat → Run σ α) : Prop :=
  ∀ n s, ((x n).run s).result ≠ .error .exhausted → ∀ m, n ≤ m → (x m).run s = (x n).run s

/-- Work that is not bounded at all is stable. -/
theorem stable_const (x : Run σ α) : Stable fun _ => x := fun _ _ _ _ _ => rfl

/-- A chain of runs that has come to something does not change if neither of its parts does. -/
theorem run_bind_unchanged {x y : Run σ α} {f g : α → Run σ β}
    (hfinished : ((x >>= f).run s).result ≠ .error .exhausted)
    (hx : (x.run s).result ≠ .error .exhausted → y.run s = x.run s)
    (hf : ∀ a t, ((f a).run t).result ≠ .error .exhausted → (g a).run t = (f a).run t) :
    (y >>= g).run s = (x >>= f).run s := by
  rw [run_bind] at hfinished
  rw [run_bind, run_bind]
  cases hrun : x.run s with
  | mk result t trace =>
    rw [hrun] at hfinished hx
    cases result with
    | error fault =>
      have hsame : y.run s = ⟨.error fault, t, trace⟩ :=
        hx fun h => hfinished (by rw [Except.error.inj h])
      rw [hsame]
    | ok a =>
      have hsame : (g a).run t = (f a).run t := hf a t fun h => hfinished h
      rw [hx nofun]
      dsimp only
      rw [hsame]

/-- Both ways of a choice may be stable. -/
theorem stable_ite {c : Prop} [Decidable c] {x y : Nat → Run σ α} (hx : Stable x) (hy : Stable y) :
    Stable fun n => if c then x n else y n := by
  by_cases hc : c
  · simp only [if_pos hc]
    exact hx
  · simp only [if_neg hc]
    exact hy

/-- A chain is stable if all its runs are: what the first one needed is enough for it from then
on. -/
theorem stable_bind {x : Nat → Run σ α} {f : Nat → α → Run σ β} (hx : Stable x)
    (hf : ∀ a, Stable fun n => f n a) : Stable fun n => x n >>= f n := fun n s hfinished m hm =>
  run_bind_unchanged hfinished (fun h => hx n s h m hm) fun a t h => hf a n t h m hm

/-- Stability is no matter of the value. -/
theorem stable_discard {x : Nat → Run σ α} (hx : Stable x) : Stable fun n => discard (x n) := by
  intro n s hfinished m hm
  have hmap : ∀ k, (discard (x k)).run s =
      ⟨((x k).run s).result.map fun _ => (), ((x k).run s).state, ((x k).run s).trace⟩ := fun k =>
        run_map _ _ _
  dsimp only at hfinished ⊢
  rw [hmap] at hfinished
  rw [hmap, hmap, hx n s (fun hexhausted => hfinished (by rw [hexhausted]; rfl)) m hm]

/-- Repeating a step is stable if the step is. -/
theorem stable_iterate {step : Nat → β → Run σ (β ⊕ α)}
    (hstep : ∀ b, Stable fun n => step n b) (b : β) : Stable fun n => iterate (step n) n b := by
  -- the bound of the step and the number of repetitions grow apart
  have hboth : ∀ k l n m b s, k ≤ l → n ≤ m →
      ((iterate (step n) k b).run s).result ≠ .error .exhausted →
      (iterate (step m) l b).run s = (iterate (step n) k b).run s := by
    intro k
    induction k with
    | zero => exact fun l n m b s _ _ hfinished => absurd rfl hfinished
    | succ k ih =>
      intro l n m b s hl hm hfinished
      obtain ⟨l, rfl⟩ := Nat.exists_eq_add_of_le' (Nat.le_of_add_left_le hl)
      rw [iterate_succ] at hfinished ⊢
      rw [iterate_succ]
      refine run_bind_unchanged hfinished (fun h => hstep b n s h m hm) fun next t h => ?_
      cases next with
      | inr a => rfl
      | inl b' => exact ih l n m b' t (by omega) hm h
  exact fun n s hfinished m hm => hboth n m n m b s hm hm hfinished

/-- **Repetition is stable**: once a step stops, it would stop with more repetitions, too. -/
theorem stable_repeated (step : Run σ (Option α)) : Stable (repeated step) :=
  stable_iterate (fun _ => stable_const _) ()

/-- Once a stable run has come to something, it has ended. -/
theorem Stable.ends {x : Nat → Run σ α} (h : Stable x) {n : Nat}
    (hfinished : ((x n).run s).result ≠ .error .exhausted) : Ends x s ((x n).run s) :=
  ⟨hfinished, n, h n s hfinished⟩

/-- What a stable run yields with enough rounds, it does with fewer, unless these are used up. -/
theorem Stable.returns_or_exhausted {x : Nat → Run σ α} (h : Stable x) {a : α} {s' : σ}
    (hyields : Yields x s a s') (n : Nat) : (x n).Returns s a s' ∨ (x n).Fails s .exhausted := by
  by_cases hexhausted : (x n).Fails s .exhausted
  · exact .inr hexhausted
  · obtain ⟨m, hm⟩ := hyields
    obtain ⟨trace, hreturns⟩ := hm (max n m) (Nat.le_max_right ..)
    rw [h n s hexhausted (max n m) (Nat.le_max_left ..)] at hreturns
    exact .inl ⟨trace, hreturns⟩

/-- **Going on for ever.** If each step hands on to another one, all repetitions are used up,
however many there may be. -/
theorem iterate_exhausted {step : Nat → β → Run σ (β ⊕ α)} (hstable : ∀ b, Stable fun n => step n b)
    (inv : β → σ → Prop)
    (hstep : ∀ b s, inv b s → ∃ b' s', Yields (fun n => step n b) s (.inl b') s' ∧ inv b' s')
    {b : β} (h : inv b s) (n k : Nat) : (iterate (step n) k b).Fails s .exhausted := by
  induction k generalizing b s with
  | zero => rfl
  | succ k ih =>
    obtain ⟨b', s', hyields, hinv⟩ := hstep b s h
    rw [iterate_succ]
    rcases (hstable b).returns_or_exhausted hyields n with hreturns | hexhausted
    · exact hreturns.bind_fails (ih hinv)
    · exact hexhausted.bind _

end Run

end GrammarEngine
