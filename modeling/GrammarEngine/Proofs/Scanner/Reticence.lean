import GrammarEngine.Proofs.Scanner.Regime

/-!
# Scanners whose routines push nothing back

A scanner is reticent if neither the routines of its patterns nor those left for the ends of files
push tokens back. Reticent scanners stay so, and they never come to the fault of a second token
pushed back, since they push none back themselves.

After a token was delivered there is none that was pushed back: it was the token delivered, or else
it had to be delivered before anything was scanned. At the end of a file the token comes back that
had been pushed back when the file was included. That token is delivered at once, unless another
file is gone on with, which keeps it for later.

Main results:

* `polite_includeFile`, `polite_next` — what may be asked of a reticent scanner.
* `pending_of_next` — behind a token delivered nothing is pushed back.
-/

namespace GrammarEngine

namespace Run

variable {σ α β : Type} {inv : σ → Prop}

/-- A run keeps a property of the state, and does not come to the fault of a second
token pushed back. -/
def Polite (inv : σ → Prop) (x : Run σ α) : Prop := ∀ s, inv s →
  x.Leaves s fun r t => inv t ∧ Harmless r

theorem polite_iff {x : Run σ α} : Polite inv x ↔ Respects (Same inv) Fault.IsMild x :=
  respects_same_iff.symm

theorem polite_pure (a : α) : Polite inv (pure a) := polite_iff.mpr (respects_pure a)

theorem polite_bind {x : Run σ α} {f : α → Run σ β}
    (hx : Polite inv x) (hf : ∀ a, Polite inv (f a)) : Polite inv (x >>= f) :=
  polite_iff.mpr (respects_bind (polite_iff.mp hx) fun a => polite_iff.mp (hf a))

theorem Polite.of_returns {x : Run σ α} {s t : σ} {a : α}
    (hx : Polite inv x) (hs : inv s) (h : x.Returns s a t) : inv t := ((hx s hs).of_returns h).1

end Run

namespace Scanner

variable {α : Type} {s t : Scanner}

/-- No routine of a scanner pushes a token back. -/
structure Reticent (s : Scanner) : Prop where
  routines : ∀ mode, ∀ p ∈ (s.lexicon.patterns? mode).getD [], ∀ routine, p.routine = some routine →
    ∀ m, (routine m).Within False
  atEnds : ∀ input ∈ s.inputs, input.atEnd.Within False

theorem Reticent.of_inputs (h : s.Reticent) (hlexicon : t.lexicon = s.lexicon)
    (hinputs : ∀ routine ∈ t.inputs.map Input.atEnd,
      routine.Within False ∨ routine ∈ s.inputs.map Input.atEnd) :
    t.Reticent where
  routines := by
    rw [hlexicon]
    exact h.routines
  atEnds input hinput := by
    rcases hinputs _ (List.mem_map_of_mem hinput) with hwithin | hold
    · exact hwithin
    · obtain ⟨input', hinput', heq⟩ := List.mem_map.mp hold
      rw [← heq]
      exact h.atEnds input' hinput'

theorem Reticent.of_sameStock (h : s.Reticent) (hstock : s.SameStock t) : t.Reticent :=
  h.of_inputs hstock.lexicon fun _ hroutine => .inr (hstock.atEnds ▸ hroutine)

theorem Reticent.including {stream : Stream} {atEnd : Routine}
    (h : s.Reticent) (hatEnd : atEnd.Within False) : (s.including stream atEnd).Reticent := by
  refine h.of_inputs rfl fun routine hroutine => ?_
  unfold Scanner.including at hroutine
  rcases List.mem_cons.mp hroutine with rfl | hroutine
  · exact .inl hatEnd
  · refine .inr ?_
    cases hinputs : s.inputs with
    | nil =>
      rw [hinputs] at hroutine
      exact hroutine
    | cons input below =>
      rw [hinputs] at hroutine
      exact hroutine

/-- The regime of reticent scanners. -/
def reticence : Regime where
  licence := False
  Holds := Reticent
  of_sameStock := Reticent.of_sameStock
  included := Reticent.including
  pushedBack h := h.elim
  routines h := h.routines _

theorem returning_reticence : reticence.Returning where
  atEnds h := h.atEnds
  resumed h hinputs := h.of_inputs rfl fun routine hroutine => .inr (by
    rw [hinputs]
    exact List.mem_cons_of_mem _ hroutine)
  delivered h := h.of_inputs rfl fun _ hroutine => .inr hroutine

/-- The regime of reticent scanners with no token that was pushed back. -/
def emptiness : Regime where
  licence := False
  Holds s := s.Reticent ∧ s.pending = none
  of_sameStock h hstock := ⟨h.1.of_sameStock hstock, hstock.pending.trans h.2⟩
  included h hatEnd := ⟨h.1.including hatEnd, rfl⟩
  pushedBack h := h.elim
  routines h := h.1.routines _

-- ---------------------------------------------------------------------------
-- Work on a reticent scanner
-- ---------------------------------------------------------------------------

theorem polite_of_governs {work : Run Scanner α} (h : reticence.Governs ⟨[], 0, []⟩ work) :
    Run.Polite Reticent work := fun _ hs => (h.leaves hs).mono fun _ _ ht =>
  ⟨ht.1, fun fault hfault => (ht.2 fault hfault).resolve_left id⟩

/-- A file may be gone on with, if the routine for its end pushes nothing back. -/
theorem polite_includeFile (name : String) (position : Option Position) {atEnd : Routine}
    (h : atEnd.Within False) : Run.Polite Reticent (includeFile name position atEnd) :=
  polite_of_governs (governs_includeFile name position h)

theorem polite_errorAt (id text : String) (position : Option Position) (data : Payload) :
    Run.Polite Reticent (errorAt id text position data : Run Scanner α) :=
  polite_of_governs (governs_errorAt id text position data)

theorem polite_report (severity : Severity) (id text : String) (position : Option Position)
    (data : Payload) : Run.Polite Reticent (report severity id text position data) :=
  polite_of_governs (governs_report severity id text position data)

theorem polite_next (rounds : Nat) : Run.Polite Reticent (next rounds) :=
  polite_of_governs (governs_next returning_reticence rounds)

theorem polite_pushBack (token : Token) (h : s.pending = none) (hs : s.Reticent) :
    (pushBack token).Leaves s fun r t => t.Reticent ∧ Harmless r := by
  unfold pushBack
  rw [Run.leaves_get_bind, h]
  exact ⟨hs.of_inputs rfl fun _ hroutine => .inr hroutine, harmless_ok ()⟩

-- ---------------------------------------------------------------------------
-- Behind a token
-- ---------------------------------------------------------------------------

theorem emptiness_of_returns {work : Run Scanner α} {a : α} (h : emptiness.Governs ⟨[], 0, []⟩ work)
    (hs : s.Reticent) (hempty : s.pending = none) (hreturns : work.Returns s a t) :
    t.Reticent ∧ t.pending = none := ((h.leaves ⟨hs, hempty⟩).of_returns hreturns).1

/-- The token pushed back before a file is delivered at the end of the file, or kept for
later again. -/
theorem pending_of_endOfInput {found : Option Token} (hempty : s.pending = none)
    (h : endOfInput.Returns s found t) : t.pending = none := by
  unfold endOfInput at h
  obtain ⟨_, _, hget, h⟩ := Run.returns_bind.mp h
  obtain ⟨rfl, rfl⟩ := Run.returns_get.mp hget
  split at h
  · obtain ⟨_, _, -, herror⟩ := Run.returns_bind.mp h
    exact absurd herror not_returns_errorAt
  · split at h
    · obtain ⟨_, _, -, h⟩ := Run.returns_bind.mp h
      obtain ⟨_, _, -, h⟩ := Run.returns_bind.mp h
      obtain ⟨_, _, -, h⟩ := Run.returns_bind.mp h
      obtain ⟨_, _, -, h⟩ := Run.returns_bind.mp h
      obtain ⟨_, _, hmodify, h⟩ := Run.returns_bind.mp h
      obtain rfl := Run.returns_modify.mp hmodify
      obtain ⟨-, rfl⟩ := Run.returns_pure.mp h
      rfl
    · obtain ⟨_, _, hset, h⟩ := Run.returns_bind.mp h
      obtain rfl := Run.returns_set.mp hset
      obtain ⟨-, rfl⟩ := Run.returns_pure.mp h
      exact hempty

/-- A round that begins with nothing pushed back ends so. -/
theorem pending_of_scanRound {found : Option Token} (hs : s.Reticent) (hempty : s.pending = none)
    (h : scanRound.Returns s found t) : t.Reticent ∧ t.pending = none := by
  refine ⟨(polite_of_governs (governs_scanRound returning_reticence)).of_returns hs h, ?_⟩
  unfold scanRound at h
  obtain ⟨ready, s₁, hready, h⟩ := Run.returns_bind.mp h
  obtain ⟨hs₁, hempty₁⟩ :=
    emptiness_of_returns (governs_onStream Stream.respects_readyNextLine) hs hempty hready
  cases ready with
  | true =>
    exact (emptiness_of_returns (Run.respects_bind governs_cleanup fun _ =>
      governs_scanAtCursor) hs₁ hempty₁ h).2
  | false => exact pending_of_endOfInput hempty₁ h

/-- **Behind a token** that was delivered nothing is pushed back. -/
theorem pending_of_next {rounds : Nat} {token : Token}
    (hs : s.Reticent) (h : (next rounds).Returns s token t) : t.pending = none := by
  have hrepeated : ∀ (rounds : Nat) (s : Scanner), s.Reticent → s.pending = none →
      (Run.repeated scanRound rounds).Returns s token t → t.pending = none := by
    intro rounds
    induction rounds with
    | zero =>
      rintro s - - ⟨trace, h⟩
      cases h
    | succ rounds ih =>
      intro s hs hempty h
      rw [Run.repeated_succ] at h
      obtain ⟨found, s₁, hround, h⟩ := Run.returns_bind.mp h
      obtain ⟨hs₁, hempty₁⟩ := pending_of_scanRound hs hempty hround
      cases found with
      | none => exact ih s₁ hs₁ hempty₁ h
      | some found =>
        obtain ⟨-, rfl⟩ := Run.returns_pure.mp h
        exact hempty₁
  unfold next at h
  obtain ⟨_, _, hget, h⟩ := Run.returns_bind.mp h
  obtain ⟨rfl, rfl⟩ := Run.returns_get.mp hget
  split at h
  · obtain ⟨_, _, hset, h⟩ := Run.returns_bind.mp h
    obtain rfl := Run.returns_set.mp hset
    obtain ⟨-, rfl⟩ := Run.returns_pure.mp h
    rfl
  · next hempty _ =>
    obtain ⟨-, rfl⟩ := Run.returns_pure.mp h
    exact hempty
  · next hempty _ =>
    split at h
    · exact absurd h Run.not_returns_refuse
    · exact hrepeated rounds _ hs hempty h

end Scanner

end GrammarEngine
