import GrammarEngine.MessageLog
import GrammarEngine.Proofs.Outcomes

/-!
# Laws of runs

Some things are to be said of every run, whether it returns or ends with a fault: which events it
may leave behind, which faults it may come to, and how the state at its end goes with the one at its
start. Such a law has to carry over to chains. It must be true of a run that does nothing, and of
two runs one after the other if it is true of both.

A law also says which states it is about. A run that obeys it from one of them ends in one of them,
so that the next run may rely on that.

Main results:

* `Run.Accords.bind` — chains of runs in accord with a law.
* `Run.accords_iterate` — repetitions, if a law bears that they are cut short.
* `Run.Law.Records.add`, `Run.Law.Records.error` — messages, if a law lets them be
  recorded and raised.
-/

namespace GrammarEngine

/-- The fault that a result is, if it is one. -/
def faultOf? {α : Type} : Except Fault α → Option Fault
  | .ok _ => none
  | .error fault => some fault

@[simp] theorem faultOf?_ok {α : Type} (a : α) : faultOf? (.ok a) = none := rfl

@[simp] theorem faultOf?_error {α : Type} (fault : Fault) :
    faultOf? (.error fault : Except Fault α) = some fault := rfl

/-- A fault that is no error reported about the input, is not raised by pushing back a second token,
and does not say that a run was cut short. -/
def Fault.IsPlain : Fault → Prop
  | .parse _ | .secondPushBack _ _ | .exhausted => False
  | _ => True

/-- If a result is a fault, it is one of some faults. -/
def Only {α : Type} (ok : Fault → Prop) (result : Except Fault α) : Prop :=
  ∀ fault, result = .error fault → ok fault

section Only

variable {α β : Type} {ok : Fault → Prop}

/-- What is no fault is none of another kind. -/
theorem only_ok (a : α) : Only ok (.ok a) := by
  intro fault h
  cases h

/-- A fault of a kind is of that kind only. -/
theorem only_error {fault : Fault} (h : ok fault) : Only ok (.error fault : Except Fault α) :=
  fun _ hfault => Except.error.inj hfault ▸ h

/-- A chain of results fails as its parts do. -/
theorem only_bind {x : Except Fault α} {f : α → Except Fault β}
    (hx : Only ok x) (hf : ∀ a, Only ok (f a)) : Only ok (x >>= f) := by
  cases x with
  | ok a => exact hf a
  | error fault => exact only_error (hx fault rfl)

/-- A row of results fails as its items do. -/
theorem only_mapM {f : α → Except Fault β} (hf : ∀ a, Only ok (f a)) (items : List α) :
    Only ok (items.mapM f) := by
  induction items with
  | nil => exact only_ok []
  | cons a rest ih =>
    rw [List.mapM_cons]
    exact only_bind (hf a) fun b => only_bind ih fun bs => only_ok (b :: bs)

/-- So does a row of checks. -/
theorem only_forM {f : α → Except Fault Unit} (hf : ∀ a, Only ok (f a)) (items : List α) :
    Only ok (items.forM f) := by
  induction items with
  | nil => exact only_ok ()
  | cons a rest ih => exact only_bind (hf a) fun _ => ih

end Only

/-- A token was shifted. -/
def Event.isShift : Event → Bool
  | .shifted .. => true
  | _ => false

namespace Run

variable {σ τ α β : Type}

/-- What is to be said of a run: of the state at its start, the fault it ends with, if any, its
events, and the state at its end. -/
structure Law (σ : Type) where
  /-- The states it is about. -/
  Holds : σ → Prop
  Says : σ → Option Fault → List Event → σ → Prop
  /-- Nothing happens. -/
  still : ∀ s, Says s none [] s
  /-- One thing happens after the other. -/
  chain : ∀ {s t u fault trace trace'}, Says s none trace t → Says t fault trace' u →
    Says s fault (trace' ++ trace) u

/-- A law that bears plain faults, and all events but the shift of a token. -/
structure Law.Lenient (L : Law σ) : Prop where
  plain : ∀ s fault, fault.IsPlain → L.Says s (some fault) [] s
  event : ∀ s event, event.isShift = false → L.Says s none [event] s

/-- A run is in accord with a law. -/
structure Accords (L : Law σ) (x : Run σ α) (s : σ) : Prop where
  holds : L.Holds (x.run s).state
  told : L.Says s (faultOf? (x.run s).result) (x.run s).trace (x.run s).state

/-- From all states that a law is about, a run is in accord with it. -/
def Law.Obeyed (L : Law σ) (x : Run σ α) : Prop := ∀ s, L.Holds s → Accords L x s

/-- The law that says nothing. -/
def Law.nothing : Law σ where
  Holds _ := True
  Says _ _ _ _ := True
  still _ := trivial
  chain _ _ := trivial

/-- The law that says nothing bears anything. -/
theorem lenient_nothing : (Law.nothing : Law σ).Lenient :=
  ⟨fun _ _ _ => trivial, fun _ _ _ => trivial⟩

/-- And everything obeys it. -/
theorem obeyed_nothing (x : Run σ α) : Law.nothing.Obeyed x := fun _ _ => ⟨trivial, trivial⟩

/-- The law of leaving everything as it is, but for plain faults. -/
def Law.unmoved : Law σ where
  Holds _ := True
  Says s fault _ t := t = s ∧ ∀ f, fault = some f → f.IsPlain
  still _ := ⟨rfl, fun _ h => (Option.some_ne_none _ h.symm).elim⟩
  chain h h' := ⟨h'.1.trans h.1, h'.2⟩

/-- Leaving all as it is bears plain faults and all events. -/
theorem lenient_unmoved : (Law.unmoved : Law σ).Lenient where
  plain _ _ hplain := ⟨rfl, fun _ h => Option.some.inj h ▸ hplain⟩
  event _ _ _ := ⟨rfl, fun _ h => (Option.some_ne_none _ h.symm).elim⟩

variable {L : Law σ} {x : Run σ α} {s : σ}

/-- To return a value is in accord with every law. -/
theorem accords_pure (a : α) (h : L.Holds s) : Accords L (pure a) s := ⟨h, L.still s⟩

/-- To give up is, if the law bears the fault. -/
theorem accords_fail {fault : Fault} (h : L.Holds s) (hfault : L.Says s (some fault) [] s) :
    Accords L (fail fault : Run σ α) s := ⟨h, hfault⟩

/-- A new state has to be one that the law is about, and the change one that it says. -/
theorem accords_set {t : σ} (h : L.Holds t) (hchange : L.Says s none [] t) :
    Accords L (set t) s := ⟨h, hchange⟩

/-- It is so for changes that are computed from the state. -/
theorem accords_modify {f : σ → σ} (h : L.Holds (f s)) (hchange : L.Says s none [] (f s)) :
    Accords L (modify f) s :=
  ⟨h, hchange⟩

/-- After a run in accord with a law comes another one. What is known of a run that
returns may be used. -/
theorem Accords.bind {f : α → Run σ β} (hx : Accords L x s)
    (hf : ∀ a t, L.Holds t → x.Returns s a t → Accords L (f a) t) : Accords L (x >>= f) s := by
  obtain ⟨hholds, htold⟩ := hx
  rcases hrun : x.run s with ⟨fault | a, t, trace⟩
  all_goals
    rw [hrun] at hholds htold
  · constructor <;> rw [run_bind, hrun]
    · exact hholds
    · exact htold
  · obtain ⟨hholds', htold'⟩ := hf a t hholds ⟨trace, hrun⟩
    constructor <;> rw [run_bind, hrun]
    · exact hholds'
    · exact L.chain htold htold'

/-- Looking at the state goes on from it. -/
theorem accords_get_bind {f : σ → Run σ β} (h : Accords L (f s) s) : Accords L (get >>= f) s := by
  obtain ⟨hholds, htold⟩ := h
  constructor <;> rw [run_bind, run_get]
  · exact hholds
  · simpa using htold

/-- The value does not matter to a law. -/
theorem accords_discard (hx : Accords L x s) : Accords L (discard x) s := by
  obtain ⟨hholds, htold⟩ := hx
  have hrun : (discard x).run s =
      ⟨(x.run s).result.map fun _ => (), (x.run s).state, (x.run s).trace⟩ := run_map _ _ _
  constructor <;> rw [hrun]
  · exact hholds
  · cases hresult : (x.run s).result with
    | ok a | error fault =>
      rw [hresult] at htold
      exact htold

/-- What is done in any case, and does not matter to a law. -/
theorem accords_thenAlways {f : σ → σ}
    (hx : Accords L x s) (hholds : ∀ t, L.Holds t → L.Holds (f t))
    (htold : ∀ fault trace t, L.Says s fault trace t → L.Says s fault trace (f t)) :
    Accords L (thenAlways x f) s :=
  ⟨hholds _ hx.holds, htold _ _ _ hx.told⟩

section Lenient

variable (hL : L.Lenient)

include hL

/-- An event other than a shift is borne by lenient laws. -/
theorem accords_emit {event : Event} (h : L.Holds s) (hevent : event.isShift = false) :
    Accords L (emit event) s :=
  ⟨h, hL.event s event hevent⟩

/-- A lenient law bears results that only fail plainly. -/
theorem accords_ofExcept {result : Except Fault α} (h : L.Holds s)
    (hplain : Only Fault.IsPlain result) : Accords L (ofExcept result) s := by
  cases result with
  | ok a => exact accords_pure a h
  | error fault => exact accords_fail h (hL.plain s fault (hplain fault rfl))

/-- And values that have to be there, if the fault is plain. -/
theorem accords_orFail (value : Option α) {fault : Fault} (h : L.Holds s) (hplain : fault.IsPlain) :
    Accords L (orFail value fault) s := by
  cases value with
  | none => exact accords_fail h (hL.plain s fault hplain)
  | some a => exact accords_pure a h

/-- A fault about the grammar is plain. -/
theorem accords_refuse {cause : GrammarFault} (h : L.Holds s) :
    Accords L (refuse cause : Run σ α) s :=
  accords_fail h (hL.plain s _ trivial)

end Lenient

/-- Work that obeys a law may be done for one item after the other. -/
theorem obeyed_forM {f : β → Run σ Unit} {items : List β} (hf : ∀ b ∈ items, L.Obeyed (f b)) :
    L.Obeyed (items.forM f) := by
  induction items with
  | nil => exact fun _ h => accords_pure () h
  | cons b rest ih =>
    intro s h
    rw [List.forall_mem_cons] at hf
    exact (hf.1 s h).bind fun _ t ht _ => ih hf.2 t ht

/-- A repeated step obeys a law if the law bears that the repetition is cut short. -/
theorem accords_iterate {step : β → Run σ (β ⊕ α)} (hcut : ∀ s, L.Says s (some .exhausted) [] s)
    (hstep : ∀ b, L.Obeyed (step b)) (n : Nat) (b : β) (h : L.Holds s) :
    Accords L (iterate step n b) s := by
  induction n generalizing b s with
  | zero => exact ⟨h, hcut s⟩
  | succ n ih =>
    rw [iterate_succ]
    refine (hstep b s h).bind fun next t ht _ => ?_
    cases next with
    | inl b' => exact ih b' ht
    | inr a => exact accords_pure a ht

/-- **Repetition** is in accord with a law that every step obeys, if the law bears that it is cut
short. -/
theorem accords_repeated {step : Run σ (Option α)} (hcut : ∀ s, L.Says s (some .exhausted) [] s)
    (hstep : L.Obeyed step) (n : Nat) (h : L.Holds s) : Accords L (repeated step n) s := by
  unfold repeated
  refine accords_iterate hcut (fun _ s h => (hstep s h).bind fun found t ht _ => ?_) n () h
  cases found with
  | none | some => exact accords_pure _ ht

end Run

-- ---------------------------------------------------------------------------
-- Messages
-- ---------------------------------------------------------------------------

namespace MessageLog

variable {α : Type} {log : MessageLog} {m : Message}

/-- A message that is added makes a fault of itself, if any. -/
theorem eq_of_fault? {fault : Fault} (h : log.fault? m = some fault) :
    fault = .fatal m ∨ fault = .parse m := by
  unfold fault? at h
  split at h
  · exact .inl (Option.some.inj h).symm
  · exact .inr (Option.some.inj h).symm
  · split at h
    · exact .inr (Option.some.inj h).symm
    · cases h
  all_goals cases h

/-- What is recorded is echoed, if the log is told to. -/
def echo (log : MessageLog) (m : Message) : List Event := if log.console then [.reported m] else []

/-- Writing a message records it, and perhaps echoes it. -/
theorem run_write (m : Message) (log : MessageLog) :
    (write m).run log = ⟨.ok (), log.recorded m, log.echo m⟩ := by
  unfold write echo
  simp only [Run.run_bind, Run.run_get, Run.run_set, List.append_nil]
  split <;> rfl

end MessageLog

namespace Run

/-- A law of message logs that lets messages be recorded and raised. -/
def Law.Records (L : Law MessageLog) : Prop := ∀ log m, L.Holds log →
  L.Holds (log.recorded m) ∧ L.Says log (log.fault? m) (log.echo m) (log.recorded m)

variable {α : Type} {L : Law MessageLog}

/-- After a message was written it is raised, if it has to be. -/
theorem Law.Records.accords {log : MessageLog} {m : Message} {f : Unit → Run MessageLog α}
    (h : L.Records) (hlog : L.Holds log) (result : Except Fault α)
    (hf : (f ()).run (log.recorded m) = ⟨result, log.recorded m, []⟩)
    (hresult : faultOf? result = log.fault? m) : Accords L (MessageLog.write m >>= f) log := by
  obtain ⟨hholds, htold⟩ := h log m hlog
  have hrun : (MessageLog.write m >>= f).run log = ⟨result, log.recorded m, log.echo m⟩ := by
    simp only [run_bind, MessageLog.run_write, hf, List.nil_append]
  constructor <;> rw [hrun]
  · exact hholds
  · rw [hresult]
    exact htold

/-- A message that is added is recorded, and is raised if it makes one too many. -/
theorem Law.Records.add (h : L.Records) (m : Message) : L.Obeyed (MessageLog.add m) := by
  intro log hlog
  have hsame : (log.recorded m).fault? m = log.fault? m := rfl
  cases hfault : log.fault? m with
  | none =>
    refine h.accords hlog (.ok m) ?_ hfault.symm
    simp only [run_bind, run_get, hsame, hfault, run_pure, List.append_nil]
  | some fault =>
    refine h.accords hlog (.error fault) ?_ hfault.symm
    simp only [run_bind, run_get, hsame, hfault, run_fail, List.append_nil]

/-- An error is a message that is raised. -/
theorem Law.Records.error (h : L.Records) (id text : String) (position : Option Position)
    (line : Option String) (data : Payload) (calls : List MacroCall) :
    L.Obeyed (MessageLog.error id text position line data calls : Run MessageLog α) :=
  fun _ hlog => h.accords hlog _ rfl rfl

end Run

end GrammarEngine
