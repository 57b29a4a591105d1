import GrammarEngine.Parser.Actions
import GrammarEngine.Proofs.Parser.Derivation
import GrammarEngine.Proofs.Parser.Links

/-!
# Stack discipline

At the head of each round the parse is at the state of the innermost frame, and the frames hang
together (`Disciplined`). No pattern is completed before all of it that has to be there was seen.

Actions may change the grammar, the table and the input. None of this can disturb the frames that
are on the stack. There is one place where it shows all the same. Where a rule starts over, its
pattern is completed, and the parse looks again from the state of that pattern, although its frame
has gone. If it does not start over this time, because the token or the table has become another
one, the frame below is taken for the one that was completed (`Strays`): it is moved on in a pattern
that is not its own, or is completed before its time.

Main results:

* `round_linked` — a round that does not stray keeps the frames together.
* `disciplined_iff` — the discipline holds in a parse exactly if no round strays.
* `not_strays` — a second look that finds what the first one found does not.
-/

namespace GrammarEngine

namespace Parser

open Grammar

variable {σ : Type} {p p' : Parser σ}

-- ---------------------------------------------------------------------------
-- Shifting
-- ---------------------------------------------------------------------------

section Machine

variable [TokenSource σ]

/-- What shifting keeps is retained. -/
theorem Kept.retains (h : Kept p p') : Retains p p' := .of_patternOf? h.patternOf?

theorem Kept.linked_iff (h : Kept p p') {frames : List (Frame σ)} :
    p'.Linked frames ↔ p.Linked frames := by
  constructor
  · intro hlinked
    exact hlinked.retains (.of_patternOf? fun k => (h.patternOf? k).symm)
  · intro hlinked
    exact hlinked.retains h.retains

/-- A shift leads to the state of the innermost frame, and all states stay known. -/
theorem shift_known {site target : Site} {t : Transition} {token : Token} (hknown : p.Known)
    (hsite : p.KnowsSite site) (h : (shift site t token).Returns p target p') :
    p'.Known ∧ p'.AtTop target := by
  obtain ⟨hfollow, hkept, top, rest, henters, hstack⟩ := shift_returns h
  refine ⟨⟨?_, ?_⟩, top.insert t.target.index token.value token.position false, rest, hstack,
    (henters.site_eq hfollow).symm⟩
  · rw [hkept.table]
    exact hknown.table.retains hkept.retains
  · have hframes := henters.knows hsite.known hknown.frames
    rw [hstack, Option.getD_some]
    rw [List.forall_mem_cons] at hframes ⊢
    exact ⟨hframes.1.retains hkept.retains, fun f hf => (hframes.2 f hf).retains hkept.retains⟩

/-- A shift that stays in a pattern moves the innermost frame, which has to be one of
that pattern. -/
theorem shift_linked_iff {site target : Site} {t : Transition} {token : Token}
    (hsite : p.KnowsSite site) (ht : t ∈ site.state.transitions) (hloop : t.loopBack = false)
    (hinside : site.state.key.pattern.isSome)
    {f : Frame σ} {below : List (Frame σ)} (hstack : p.stack = some (f :: below))
    (h : (shift site t token).Returns p target p') :
    p'.Linked (p'.stack.getD []) ↔ p.Linked ({ f with site := site } :: below) := by
  obtain ⟨-, hkept, top, rest, henters, hstack'⟩ := shift_returns h
  rw [hstack', Option.getD_some, linked_insert_iff, hkept.linked_iff]
  obtain ⟨g, htable, hg⟩ := hsite.known
  have hpath := (htable.path _ hsite.sits.mem t).mp ht
  have hplace := htable.place _ hsite.sits.mem
  rw [hstack, Option.getD_some, hinside, hloop] at henters
  generalize hk : site.state.key = k at hpath hplace hinside
  cases hplace with
  | entry => cases hinside
  | inside hr _ _ =>
    have hkey : ({ f with site := site } : Frame σ).key = ⟨_, some _, _⟩ := hk
    exact henters.linked_iff (f := f) hg hsite.known hr (hpath.of_not_loopBack hr hloop)
      (by rw [hkey]) (by rw [hkey]) rfl

/-- A shift that starts the rule over pushes frames on a stack that waits for the rule. -/
theorem shift_again_linked {site target : Site} {t : Transition} {token : Token}
    (hsite : p.KnowsSite site) (ht : t ∈ site.state.transitions) (hloop : t.loopBack = true)
    (hne : p.stack.getD [] ≠ []) (hlinked : p.Linked (p.stack.getD []))
    (hwaits : Waits (p.stack.getD []) site.state.key.rule.name)
    (h : (shift site t token).Returns p target p') : p'.Linked (p'.stack.getD []) := by
  obtain ⟨-, hkept, top, rest, henters, hstack'⟩ := shift_returns h
  rw [hstack', Option.getD_some, linked_insert_iff, hkept.linked_iff]
  obtain ⟨g, htable, hg⟩ := hsite.known
  obtain ⟨-, r, hr, hid, -, pattern, hway⟩ :=
    ((htable.path _ hsite.sits.mem t).mp ht).of_loopBack hloop
  rw [hloop, Bool.not_true, Bool.and_false] at henters
  rw [← hid] at hwaits
  cases henters with
  | fresh hpushes => exact hpushes.linked hg hsite.known hr hway hne hlinked hwaits

/-- From a frame that hangs together with the rest, a shift that does not start the rule over leads
to one that does. -/
theorem shift_linked {site target : Site} {t : Transition} {token : Token} (hknown : p.Known)
    (htop : p.AtTop site) (hlinked : p.Linked (p.stack.getD [])) (ht : t ∈ site.state.transitions)
    (hloop : t.loopBack = false) (h : (shift site t token).Returns p target p') :
    p'.Linked (p'.stack.getD []) := by
  have hsite := hknown.site htop
  obtain ⟨f, below, hstack, rfl⟩ := htop
  rw [hstack, Option.getD_some] at hlinked
  cases hinside : f.site.state.key.pattern with
  | some pattern =>
    exact (shift_linked_iff hsite ht hloop (by rw [hinside]; rfl) hstack h).mpr hlinked
  | none =>
    -- the entry of a rule: only the frame of the start rule is there
    have hbelow : below = [] := by
      by_contra hne
      have hsome := ((linked_cons_iff hne).mp hlinked).2.2.1
      rw [Frame.key, hinside] at hsome
      cases hsome
    subst hbelow
    obtain ⟨-, hkept, top, rest, henters, hstack'⟩ := shift_returns h
    rw [hstack', Option.getD_some, linked_insert_iff, hkept.linked_iff]
    obtain ⟨g, htable, hg⟩ := hsite.known
    have hpath := (htable.path _ hsite.sits.mem t).mp ht
    have hplace := htable.place _ hsite.sits.mem
    rw [hstack, Option.getD_some, hinside] at henters
    generalize hk : f.site.state.key = k at hpath hplace hinside
    cases hplace with
    | inside => cases hinside
    | entry hr =>
      obtain ⟨pattern, chain, target, terminal, rfl, hway⟩ := (path_entry_iff hr).mp hpath
      cases henters with
      | fresh hpushes =>
        exact hpushes.linked hg hsite.known hr hway (List.cons_ne_nil _ _) hlinked
          (waits_singleton f _)

-- ---------------------------------------------------------------------------
-- Completing
-- ---------------------------------------------------------------------------

/-- The next token changes the source only. -/
theorem nextToken_eq {rounds : Nat} {token : Token} (h : (nextToken rounds).Returns p token p') :
    ∃ source, p' = { p with source := source } := by
  obtain ⟨s, s', -, -, hp'⟩ := nextToken_returns h
  exact ⟨some s', hp'⟩

/-- Finishing a frame leaves the parser known. -/
theorem finish_known {rounds : Nat} {token : Option Token} {done : Bool} (hknown : p.Known)
    (h : (finish rounds token).Returns p done p') : p'.Known := by
  obtain ⟨f, parent, below, hgrows, hcases⟩ := finish_grows h
  refine Known.grows ?_ hgrows
  refine hknown.retains (fun _ _ hq => hq) rfl ?_
  rcases hcases with ⟨-, hstack, rfl⟩ | ⟨-, hstack⟩
  · rw [hstack]
    exact fun _ hf => hf
  · rw [hstack]
    exact fun _ hf => List.mem_cons_of_mem f hf

/-- It takes no pattern away. -/
theorem finish_retains {rounds : Nat} {token : Option Token} {done : Bool}
    (h : (finish rounds token).Returns p done p') : Retains p p' := by
  obtain ⟨f, parent, below, hgrows, -⟩ := finish_grows h
  exact hgrows.retains

/-- The frames that are left after a frame was completed wait for its rule. -/
theorem finish_linked {rounds : Nat} {token : Option Token} {done : Bool} (hknown : p.Known)
    {f : Frame σ} {below : List (Frame σ)} (hstack : p.stack = some (f :: below))
    (hlinked : p.Linked (f :: below)) (h : (finish rounds token).Returns p done p') :
    p'.stack.getD [] ≠ [] ∧ p'.Linked (p'.stack.getD []) ∧
      Waits (p'.stack.getD []) f.key.rule.name := by
  obtain ⟨f', parent, rest, hgrows, hcases⟩ := finish_grows h
  have hne : p'.stack.getD [] ≠ [] := by
    intro hnil
    have hlength := hgrows.frames.length_eq
    rw [hnil] at hlength
    cases hlength
  -- what is left was linked before, and waited
  obtain ⟨hsub, hrest, hwaits⟩ : (∀ f' ∈ parent :: rest, f' ∈ p.stack.getD []) ∧
      p.Linked (parent :: rest) ∧ Waits (parent :: rest) f.key.rule.name := by
    rw [hstack] at hcases ⊢
    rcases hcases with ⟨-, hroot, rfl⟩ | ⟨-, hframes⟩
    · obtain ⟨rfl, rfl⟩ := List.cons.inj (Option.some.inj hroot)
      exact ⟨fun _ hf => hf, hlinked, waits_singleton _ _⟩
    · obtain ⟨rfl, rfl⟩ := List.cons.inj (Option.some.inj hframes)
      obtain ⟨hrest, hwaits, -, -⟩ := (linked_cons_iff (List.cons_ne_nil _ _)).mp hlinked
      exact ⟨fun _ hf => List.mem_cons_of_mem _ hf, hrest, hwaits⟩
  have hknown' : Known { p with stack := some (parent :: rest) } :=
    hknown.retains (fun _ _ hq => hq) rfl hsub
  have hrest' : Linked { p with stack := some (parent :: rest) } (parent :: rest) :=
    hrest.retains fun _ _ hq => hq
  obtain ⟨hlinked', hkept⟩ := Linked.grows hrest' hknown' hgrows
  exact ⟨hne, hlinked', hkept _ hwaits⟩

/-- Where the parse goes on after a pattern was completed. -/
theorem settle_goes_on {rounds : Nat} {site site' : Site} {token : Option Token}
    (h : (settle rounds site token).Returns p (.inl site') p') :
    site.state.reducible = true ∧ (finish rounds token).Returns p false p' ∧ p'.AtTop site' := by
  obtain ⟨hreducible, ⟨-, hnext⟩ | ⟨p₁, hfinish, hcases⟩⟩ := settle_returns h
  · cases hnext
  · obtain ⟨_, -, -, hnext⟩ | ⟨top, second, below, hstack, hnext, rfl⟩ := hcases
    · cases hnext
    · obtain rfl := Sum.inl.inj hnext
      exact ⟨hreducible, hfinish, top, second :: below, hstack, rfl⟩

-- ---------------------------------------------------------------------------
-- Looking again
-- ---------------------------------------------------------------------------

/-- `LooksAgain rounds p site again token p'`: the rule starts over, so its pattern is completed;
then the parse looks again, from `again` and with `token`. -/
inductive LooksAgain (rounds : Nat) (p : Parser σ) (site : Site) : Site → Token → Parser σ → Prop
  | intro {first token : Token} {t : Transition} {done : Bool} {p₁ p₂ p₃ : Parser σ}
      (hfirst : (nextToken rounds).Returns p first p₁)
      (ht : site.state.transition? p₁.keywordKinds first = some t) (hloop : t.loopBack = true)
      (hfinish : (finish rounds (some first)).Returns p₁ done p₂)
      (hnext : (nextToken rounds).Returns p₂ token p₃) :
      LooksAgain rounds p site (p₂.renewed site) token p₃

/-- A frame other than that of the start rule is about to be completed. -/
def Finishes (p : Parser σ) (token : Option Token) (f : Frame σ) : Prop :=
  ∃ p' parent below, (giveBack token).Returns p () p' ∧ p.stack = some (f :: parent :: below)

/-- The frames that a round completes, whatever becomes of their actions. -/
inductive Completes (rounds : Nat) (p : Parser σ) (site : Site) : Frame σ → Prop
  /-- No transition leads on from the state. -/
  | exhausted {f : Frame σ} (hempty : site.state.transitions = [])
      (hreducible : site.state.reducible = true) (h : p.Finishes none f) : Completes rounds p site f
  /-- None leads on with this token. -/
  | stuck {f : Frame σ} {p₁ : Parser σ} {token : Token} (hne : site.state.transitions ≠ [])
      (hnext : (nextToken rounds).Returns p token p₁)
      (hnone : site.state.transition? p₁.keywordKinds token = none)
      (hreducible : site.state.reducible = true)
      (h : p₁.Finishes (some token) f) : Completes rounds p site f
  /-- The rule starts over. -/
  | early {f : Frame σ} {p₁ : Parser σ} {token : Token} {t : Transition}
      (hnext : (nextToken rounds).Returns p token p₁)
      (ht : site.state.transition? p₁.keywordKinds token = some t) (hloop : t.loopBack = true)
      (h : p₁.Finishes (some token) f) : Completes rounds p site f
  /-- The rule was to start over, but at the second look no transition leads on. -/
  | late {f : Frame σ} {again : Site} {token : Token} {p₁ : Parser σ}
      (hlook : LooksAgain rounds p site again token p₁)
      (hnone : again.state.transition? p₁.keywordKinds token = none)
      (hreducible : again.state.reducible = true)
      (h : p₁.Finishes (some token) f) : Completes rounds p site f

/-- A rule was to start over and does not at the second look, so that the frame below the one that
was completed is taken for it, and this shows. -/
inductive Strays (rounds : Nat) (p : Parser σ) (site : Site) : Prop
  /-- It is moved on in the pattern that was completed, though it has another action, or the frame
  below it stands at another rule. -/
  | moved {again target : Site} {token : Token} {t : Transition} {p₁ p₂ : Parser σ} {f : Frame σ}
      {below : List (Frame σ)} (hlook : LooksAgain rounds p site again token p₁)
      (ht : again.state.transition? p₁.keywordKinds token = some t) (hloop : t.loopBack = false)
      (hshift : (shift again t token).Returns p₁ target p₂) (hstack : p₁.stack = some (f :: below))
      (hforeign : ¬ (p₁.ActsFor again.state.key f.action ∧ Waits below again.state.key.rule.name)) :
      Strays rounds p site
  /-- It is completed, though its pattern may not end where it stands. -/
  | completed {again : Site} {token : Token} {p₁ : Parser σ} {f : Frame σ}
      (hlook : LooksAgain rounds p site again token p₁)
      (hnone : again.state.transition? p₁.keywordKinds token = none)
      (hreducible : again.state.reducible = true) (h : p₁.Finishes (some token) f)
      (hopen : f.site.state.reducible = false) : Strays rounds p site

/-- What is known is still known at the second look, and the state is that of the pattern that
was completed. -/
theorem LooksAgain.known {rounds : Nat} {site again : Site} {token : Token}
    (h : LooksAgain rounds p site again token p') (hknown : p.Known) (hsite : p.KnowsSite site) :
    p'.Known ∧ p'.KnowsSite again ∧ again.state.key = site.state.key ∧
      site.state.key.pattern.isSome := by
  obtain ⟨hfirst, ht, hloop, hfinish, hnext⟩ := h
  obtain ⟨source, rfl⟩ := nextToken_eq hfirst
  obtain ⟨source', rfl⟩ := nextToken_eq hnext
  have hinside := (hsite.of_loopBack (State.matches_of_transition? ht).1 hloop).2
  have hknown₁ : Known { p with source := source } :=
    hknown.retains (fun _ _ hq => hq) rfl fun _ hf => hf
  have hsite₁ : KnowsSite { p with source := source } site := hsite.retains fun _ _ hq => hq
  have hknown₂ := finish_known hknown₁ hfinish
  obtain ⟨hagain, hkey⟩ := hknown₂.renewed (hsite₁.retains (finish_retains hfinish))
  refine ⟨hknown₂.retains (fun _ _ hq => hq) rfl fun _ hf => hf, hagain.retains fun _ _ hq =>
    hq, hkey, hinside⟩

/-- At the second look the stack waits for the rule of the pattern that was completed. -/
theorem LooksAgain.linked {rounds : Nat} {site again : Site} {token : Token}
    (h : LooksAgain rounds p site again token p') (hknown : p.Known) (htop : p.AtTop site)
    (hlinked : p.Linked (p.stack.getD [])) :
    p'.stack.getD [] ≠ [] ∧ p'.Linked (p'.stack.getD []) ∧
      Waits (p'.stack.getD []) again.state.key.rule.name := by
  have hkey := (h.known hknown (hknown.site htop)).2.2.1
  obtain ⟨f, below, hstack, rfl⟩ := htop
  obtain ⟨hfirst, -, -, hfinish, hnext⟩ := h
  obtain ⟨source, rfl⟩ := nextToken_eq hfirst
  obtain ⟨source', rfl⟩ := nextToken_eq hnext
  have hknown₁ : Known { p with source := source } :=
    hknown.retains (fun _ _ hq => hq) rfl fun _ hf => hf
  rw [hstack, Option.getD_some] at hlinked
  have hlinked₁ : Linked { p with source := source } (f :: below) :=
    hlinked.retains fun _ _ hq => hq
  obtain ⟨hne, hlinked₂, hwaits⟩ := finish_linked hknown₁ hstack hlinked₁ hfinish
  rw [hkey]
  exact ⟨hne, hlinked₂.retains fun _ _ hq => hq, hwaits⟩

/-- After the second look the round goes on from there. -/
theorem LooksAgain.round {rounds : Nat} {site again : Site} {token : Token} {p₁ : Parser σ}
    {next : Site ⊕ Unit} (h : LooksAgain rounds p site again token p₁)
    (hproceed : (proceed rounds again token).Returns p₁ next p') :
    (round rounds site).Returns p next p' := by
  obtain @⟨first, _, t, done, p₀, p₂, _, hfirst, ht, hloop, hfinish, hnext⟩ := h
  have hne : site.state.transitions.isEmpty = false := by
    cases htransitions : site.state.transitions with
    | nil =>
      have hmem := (State.matches_of_transition? ht).1
      rw [htransitions] at hmem
      exact (List.not_mem_nil hmem).elim
    | cons => rfl
  unfold Parser.round
  simp only [hne, Bool.false_eq_true, if_false]
  refine Run.returns_bind.mpr ⟨first, p₀, hfirst,
    Run.returns_bind.mpr ⟨p₀, p₀, Run.returns_get.mpr ⟨rfl, rfl⟩, ?_⟩⟩
  simp only [ht, hloop, if_true]
  refine Run.returns_bind.mpr ⟨(), p₀, Run.returns_emit.mpr rfl, ?_⟩
  refine Run.returns_bind.mpr ⟨(), p₂, Run.returns_discard.mpr ⟨done, hfinish⟩, ?_⟩
  refine Run.returns_bind.mpr ⟨p₂, p₂, Run.returns_get.mpr ⟨rfl, rfl⟩, ?_⟩
  exact Run.returns_bind.mpr ⟨token, p₁, hnext, hproceed⟩

/-- A shift is one way to proceed. -/
theorem proceed_of_shift {rounds : Nat} {site target : Site} {token : Token} {t : Transition}
    (ht : site.state.transition? p.keywordKinds token = some t)
    (hshift : (shift site t token).Returns p target p') :
    (proceed rounds site token).Returns p (.inl target) p' := by
  unfold proceed
  refine Run.returns_bind.mpr ⟨p, p, Run.returns_get.mpr ⟨rfl, rfl⟩, ?_⟩
  simp only [ht]
  exact Run.returns_bind.mpr ⟨target, p', hshift, Run.returns_pure.mpr ⟨rfl, rfl⟩⟩

-- ---------------------------------------------------------------------------
-- Rounds
-- ---------------------------------------------------------------------------

/-- Whatever a round does, all states stay known, and the parse is at that of the
innermost frame. -/
theorem round_known {rounds : Nat} {site site' : Site} (hknown : p.Known) (htop : p.AtTop site)
    (h : (round rounds site).Returns p (.inl site') p') : p'.Known ∧ p'.AtTop site' := by
  have hsite := hknown.site htop
  obtain ⟨-, hsettle⟩ | ⟨token, p₁, htoken, hcases⟩ := round_returns h
  · obtain ⟨-, hfinish, htop'⟩ := settle_goes_on hsettle
    exact ⟨finish_known hknown hfinish, htop'⟩
  · obtain ⟨source, hp₁⟩ := nextToken_eq htoken
    have hknown₁ : p₁.Known := by
      rw [hp₁]
      exact hknown.retains (fun _ _ hq => hq) rfl fun _ hf => hf
    have hsite₁ : p₁.KnowsSite site := by
      rw [hp₁]
      exact hsite.retains fun _ _ hq => hq
    obtain ⟨-, hsettle⟩ | ⟨t, ht, ⟨target, -, hnext, hshift⟩ |
        ⟨done, token', p₂, p₃, hloop, hfinish, hnext, hproceed⟩⟩ := hcases
    · obtain ⟨-, hfinish, htop'⟩ := settle_goes_on hsettle
      exact ⟨finish_known hknown₁ hfinish, htop'⟩
    · obtain rfl := Sum.inl.inj hnext
      exact shift_known hknown₁ hsite₁ hshift
    · have hlook : LooksAgain rounds p site _ token' p₃ := .intro htoken ht hloop hfinish hnext
      obtain ⟨hknown₃, hagain, -⟩ := hlook.known hknown hsite
      obtain ⟨t', target, -, htarget, hshift⟩ | ⟨-, hsettle⟩ := proceed_returns hproceed
      · obtain rfl := Sum.inl.inj htarget
        exact shift_known hknown₃ hagain hshift
      · obtain ⟨-, hfinish', htop'⟩ := settle_goes_on hsettle
        exact ⟨finish_known hknown₃ hfinish', htop'⟩

/-- A pattern that is completed where no transition leads on leaves the frames together. -/
theorem settle_linked {rounds : Nat} {site site' : Site} {token : Option Token} (hknown : p.Known)
    (hlinked : p.Linked (p.stack.getD [])) (hne : p.stack.getD [] ≠ [])
    (h : (settle rounds site token).Returns p (.inl site') p') : p'.Linked (p'.stack.getD []) := by
  obtain ⟨-, hfinish, -⟩ := settle_goes_on h
  cases hstack : p.stack.getD [] with
  | nil => exact absurd hstack hne
  | cons f below =>
    rw [hstack] at hlinked
    exact (finish_linked hknown (stack_eq_some hstack) hlinked hfinish).2.1

/-- **One round.** Unless it strays it leaves the frames together. -/
theorem round_linked {rounds : Nat} {site site' : Site} (hknown : p.Known) (htop : p.AtTop site)
    (hlinked : p.Linked (p.stack.getD [])) (hstrays : ¬ Strays rounds p site)
    (h : (round rounds site).Returns p (.inl site') p') : p'.Linked (p'.stack.getD []) := by
  have hsite := hknown.site htop
  have hne : p.stack.getD [] ≠ [] := by
    obtain ⟨f, below, hstack, -⟩ := htop
    rw [hstack]
    exact List.cons_ne_nil _ _
  obtain ⟨-, hsettle⟩ | ⟨token, p₁, htoken, hcases⟩ := round_returns h
  · exact settle_linked hknown hlinked hne hsettle
  · obtain ⟨source, hp₁⟩ := nextToken_eq htoken
    have hknown₁ : p₁.Known := by
      rw [hp₁]
      exact hknown.retains (fun _ _ hq => hq) rfl fun _ hf => hf
    have hlinked₁ : p₁.Linked (p₁.stack.getD []) := by
      rw [hp₁]
      exact hlinked.retains fun _ _ hq => hq
    have htop₁ : p₁.AtTop site := by
      rw [hp₁]
      exact htop
    have hne₁ : p₁.stack.getD [] ≠ [] := by
      rw [hp₁]
      exact hne
    obtain ⟨-, hsettle⟩ | ⟨t, ht, ⟨target, hloop, -, hshift⟩ |
        ⟨done, token', p₂, p₃, hloop, hfinish, hnext, hproceed⟩⟩ := hcases
    · exact settle_linked hknown₁ hlinked₁ hne₁ hsettle
    · exact shift_linked hknown₁ htop₁ hlinked₁ (State.matches_of_transition? ht).1 hloop hshift
    · have hlook : LooksAgain rounds p site _ token' p₃ := .intro htoken ht hloop hfinish hnext
      obtain ⟨hknown₃, hagain, hkey, hinside⟩ := hlook.known hknown hsite
      obtain ⟨hne₃, hlinked₃, hwaits⟩ := hlook.linked hknown htop hlinked
      obtain ⟨t', target, ht', -, hshift⟩ | ⟨-, hsettle⟩ := proceed_returns hproceed
      · have hmem := (State.matches_of_transition? ht').1
        cases hloop' : t'.loopBack with
        | true => exact shift_again_linked hagain hmem hloop' hne₃ hlinked₃ hwaits hshift
        | false =>
          -- the frame below moves into the pattern that was completed
          cases hstack : p₃.stack.getD [] with
          | nil => exact absurd hstack hne₃
          | cons f below =>
            have hfits : p₃.ActsFor (p₂.renewed site).state.key f.action ∧
                Waits below (p₂.renewed site).state.key.rule.name := by
              by_contra hforeign
              exact hstrays (.moved hlook ht' hloop' hshift (stack_eq_some hstack) hforeign)
            rw [hstack] at hlinked₃
            rw [← hkey] at hinside
            refine (shift_linked_iff hagain hmem hloop' hinside (stack_eq_some hstack) hshift).mpr
              ?_
            exact (linked_moved_iff hlinked₃ hinside).mpr hfits
      · exact settle_linked hknown₃ hlinked₃ hne₃ hsettle

-- ---------------------------------------------------------------------------
-- The whole parse
-- ---------------------------------------------------------------------------

/-- The stack is in order at the head of a round. -/
structure Disciplined (p : Parser σ) (site : Site) : Prop where
  /-- The parse is at the state of the innermost frame. -/
  top : p.AtTop site
  /-- The frames hang together. -/
  linked : p.Linked (p.stack.getD [])

/-- The heads of the rounds of a parse. It begins at the entry of a rule, with a table that was made
from the grammar. -/
inductive Reaches (p₀ : Parser σ) (rounds : Nat) (rule : String) (source : σ) :
    Site → Parser σ → Prop
  | start {p : Parser σ} {r : Rule (Action σ)} {state : State}
      (hupdate : updateTable.Returns p₀ () p) (hrule : p.grammar.find? rule = some r)
      (hstate : p.table.find? ⟨r.id, none, 0⟩ = some state) :
      Reaches p₀ rounds rule source ⟨p.table, state⟩
        { p with
          source := some source, stack := some [{ site := ⟨p.table, state⟩, action := none }] }
  | next {p p' : Parser σ} {site site' : Site} (h : Reaches p₀ rounds rule source site p)
      (hround : (round rounds site).Returns p (.inl site') p') :
      Reaches p₀ rounds rule source site' p'

section Parse

variable {p₀ : Parser σ} {rounds : Nat} {rule : String} {source : σ}

/-- A parse that returns is one of these: its last round begins at a head that is reached. -/
theorem reaches_of_parse {v : Value}
    (h : (updateTable >>= fun _ => parse rounds rule source).Returns p₀ v p') :
    ∃ site p, Reaches p₀ rounds rule source site p ∧
      (round rounds site).Returns p (.inr ()) p' := by
  obtain ⟨_, p, hupdate, hparse⟩ := Run.returns_bind.mp h
  obtain ⟨-, -, ⟨_, _, hp⟩, -⟩ := updateTable_returns hupdate
  obtain ⟨r, p₁, state, root, below, hprepare, hstate, hiterate, -⟩ := parse_returns hparse
  obtain ⟨hrule, rfl⟩ := prepare_returns (by rw [hp]) hprepare
  exact hiterate.iterate_invariant (fun site p => Reaches p₀ rounds rule source site p)
    (.start hupdate hrule hstate) fun _ _ _ _ h hround => h.next hround

/-- Along a run the parser stays known, with its site at the top. -/
theorem Reaches.known {site : Site} (h : Reaches p₀ rounds rule source site p) :
    p.Known ∧ p.AtTop site := by
  induction h with
  | @start p r state hupdate hrule hstate =>
    have htable := updateTable_knows hupdate
    have hsite : p.KnowsSite ⟨p.table, state⟩ :=
      ⟨htable, rfl, by rw [Table.key_of_find?_eq_some hstate]; exact hstate⟩
    refine ⟨⟨htable.retains fun _ _ hq => hq, fun f hf => ?_⟩, _, _, rfl, rfl⟩
    rw [List.mem_singleton.mp hf]
    exact hsite.retains fun _ _ hq => hq
  | next _ hround ih => exact round_known ih.1 ih.2 hround

/-- As long as no round strays, the stack is in order. -/
theorem Reaches.disciplined {site : Site} (h : Reaches p₀ rounds rule source site p)
    (hstrays : ∀ site p, Reaches p₀ rounds rule source site p → ¬ Strays rounds p site) :
    p.Disciplined site := by
  refine ⟨h.known.2, ?_⟩
  induction h with
  | @start p r state hupdate hrule hstate =>
    refine linked_singleton_iff.mpr ?_
    have hkey : state.key = ⟨r.id, none, 0⟩ := Table.key_of_find?_eq_some hstate
    unfold ActsFor Frame.key
    rw [hkey]
  | @next p p' site site' hreach hround ih =>
    exact round_linked hreach.known.1 hreach.known.2 ih (hstrays _ _ hreach) hround

/-- From a head where the stack is in order and which does not stray, only patterns that may end
are completed. -/
theorem reducible_of_completes {site : Site} {f : Frame σ} (hknown : p.Known) (htop : p.AtTop site)
    (hstrays : ¬ Strays rounds p site) (h : Completes rounds p site f) :
    f.site.state.reducible = true := by
  have hsite := hknown.site htop
  -- a frame that is completed from the state of the head is the innermost one
  have hinnermost : ∀ {p₁ : Parser σ} {token}, p₁.Finishes token f → p₁.stack = p.stack →
      f.site = site := by
    intro p₁ token hfinishes hsame
    obtain ⟨top, below, hstack, rfl⟩ := htop
    obtain ⟨_, _, _, -, hstack'⟩ := hfinishes
    rw [hsame, hstack] at hstack'
    rw [(List.cons.inj (Option.some.inj hstack')).1]
  cases h with
  | exhausted _ hreducible hfinishes =>
    rw [hinnermost hfinishes rfl]
    exact hreducible
  | stuck _ hnext _ hreducible hfinishes =>
    obtain ⟨_, rfl⟩ := nextToken_eq hnext
    rw [hinnermost hfinishes rfl]
    exact hreducible
  | early hnext ht hloop hfinishes =>
    obtain ⟨_, rfl⟩ := nextToken_eq hnext
    rw [hinnermost hfinishes rfl]
    exact (hsite.of_loopBack (State.matches_of_transition? ht).1 hloop).1
  | late hlook hnone hreducible hfinishes =>
    by_contra hopen
    exact hstrays (.completed hlook hnone hreducible hfinishes (Bool.eq_false_iff.mpr hopen))

/-- A round that strays from a stack in order leaves one that is not, or completes a
pattern too early. -/
theorem Strays.breaks {site : Site} (hknown : p.Known) (hdisciplined : p.Disciplined site)
    (h : Strays rounds p site) :
    (∃ site' p', (round rounds site).Returns p (.inl site') p' ∧ ¬ p'.Disciplined site') ∨
      ∃ f, Completes rounds p site f ∧ f.site.state.reducible = false := by
  cases h with
  | @moved again target token t p₁ p₂ f below hlook ht hloop hshift hstack hforeign =>
    obtain ⟨-, hagain, hkey, hinside⟩ := hlook.known hknown (hknown.site hdisciplined.top)
    obtain ⟨-, hlinked, -⟩ := hlook.linked hknown hdisciplined.top hdisciplined.linked
    rw [hstack, Option.getD_some] at hlinked
    rw [← hkey] at hinside
    refine .inl ⟨target, p₂, hlook.round (proceed_of_shift ht hshift), fun hnext => hforeign ?_⟩
    refine (linked_moved_iff hlinked hinside).mp ?_
    exact (shift_linked_iff hagain (State.matches_of_transition? ht).1
      hloop hinside hstack hshift).mp hnext.linked
  | completed hlook hnone hreducible hfinishes hopen =>
    exact .inr ⟨_, .late hlook hnone hreducible hfinishes, hopen⟩

/-- Where the second look finds a transition that starts the rule over, as the first one did, the
round does not stray. -/
theorem not_strays {site : Site}
    (h : ∀ again token p', LooksAgain rounds p site again token p' →
      ∃ t, again.state.transition? p'.keywordKinds token = some t ∧ t.loopBack = true) :
    ¬ Strays rounds p site := by
  rintro (⟨hlook, ht, hloop, -⟩ | ⟨hlook, hnone, -⟩)
  · obtain ⟨t, ht', hloop'⟩ := h _ _ _ hlook
    rw [ht] at ht'
    cases ht'
    rw [hloop] at hloop'
    cases hloop'
  · obtain ⟨t, ht', -⟩ := h _ _ _ hlook
    rw [hnone] at ht'
    cases ht'

/--
**Stack discipline.** For any grammar whose table can be made, any source and any actions: the
stack is in order at the head of every round, and only patterns that may end are completed,
exactly if no round strays.
-/
theorem disciplined_iff :
    (∀ site p, Reaches p₀ rounds rule source site p →
      p.Disciplined site ∧ ∀ f, Completes rounds p site f → f.site.state.reducible = true) ↔
    ∀ site p, Reaches p₀ rounds rule source site p → ¬ Strays rounds p site := by
  constructor
  · intro h site p hreach hstrays
    obtain ⟨hdisciplined, hcompletes⟩ := h site p hreach
    obtain ⟨site', p', hround, hbroken⟩ | ⟨f, hcompleted, hopen⟩ :=
      hstrays.breaks hreach.known.1 hdisciplined
    · exact hbroken (h site' p' (hreach.next hround)).1
    · rw [hcompletes f hcompleted] at hopen
      cases hopen
  · intro h site p hreach
    refine ⟨hreach.disciplined h, fun f hcompletes => ?_⟩
    exact reducible_of_completes hreach.known.1 hreach.known.2 (h site p hreach) hcompletes

/-- Goes on with the file that an element names. -/
private def fileNamed : Action Scanner
  | [_, .text file] => .source (do pure (.text (← Scanner.includeFile file none .idle))) .done
  | _ => .done .nothing

/-- A list, a comma and a name. The list is a row of inclusions and names, and ends in a
semicolon. -/
private def listParser : Parser Scanner where
  grammar :=
    { rules :=
        [{ id := ⟨"file", 0⟩
           patterns :=
             [.ofTokens [⟨.reference, "list"⟩, ⟨.literal, ","⟩, ⟨.category, "ID"⟩]
               (some Action.list)] },
          { id := ⟨"list", 1⟩
            patterns :=
              [.ofTokens [⟨.reference, "items"⟩, ⟨.literal, ";"⟩] (some (Action.tagged "list"))] },
          { id := ⟨"items", 2⟩
            patterns :=
              [.ofTokens [⟨.literal, "include"⟩, ⟨.category, "ID"⟩] (some fileNamed),
               .ofTokens [⟨.category, "ID"⟩] (some (Action.element 0))]
            repeatable := true }]
      distinct := by decide }
  declared := 3
  stamped := by decide

/-- The name behind the inclusion starts the items over, but the file that is included begins
with a comma. -/
private def commaFirst : Scanner :=
  { master := "main"
    lexicon :=
      [ (none,
          [ ⟨none, ⟨.repeated 1 none false (.oneOf false [.char ' ', .char '\n']), 0, {}⟩, none⟩,
            ⟨some "ID", ⟨.repeated 1 none false (.oneOf false [.range 'a' 'z']), 0, {}⟩, none⟩,
            ⟨some "LITERAL", ⟨.oneOf false [.char ',', .char ';'], 0, {}⟩, none⟩ ]) ]
    defaultMode := none
    disk := ⟨[(.ofName "f", .text ",\n")]⟩
    mode := none
    inputs := [{ stream := .ofText "include f x\n" "main" }] }

/-- The word behind the inclusion. -/
private def wordX : Token := ⟨"ID", .text "x", some ⟨"main", 1, 11⟩⟩

/-- The comma that the included file begins with. -/
private def comma : Token := ⟨"LITERAL", .text ",", some ⟨"f", 1, 1⟩⟩

/-- The parser with its tables. -/
private def tabled : Parser Scanner := (updateTable.run listParser).state

/-- In front of the main file. -/
private def entry : Site := ⟨tabled.table, (tabled.table.find? ⟨⟨"file", 0⟩, none, 0⟩).getD default⟩

/-- The parse begins. -/
private def begun : Parser Scanner :=
  { tabled with source := some commaFirst, stack := some [{ site := entry, action := none }] }

/-- The site of the innermost frame. -/
private def headOf (p : Parser Scanner) : Site := (p.stack.getD []).head?.elim entry Frame.site

/-- The parser after the first round. -/
private def seenInclude : Parser Scanner := ((round 9 entry).run begun).state

/-- The parser after the second round. -/
private def seenName : Parser Scanner := ((round 9 (headOf seenInclude)).run seenInclude).state

/-- It looks at the word behind the inclusion. -/
private def lookedUp : Parser Scanner := ((nextToken 9).run seenName).state

/-- The inclusion is completed, which puts the file in front of the word. -/
private def goneOn : Parser Scanner := ((finish 9 (some wordX)).run lookedUp).state

/-- It looks again. -/
private def lookedAgain : Parser Scanner := ((nextToken 9).run goneOn).state

/-- A run of two rounds leads there. -/
private theorem reaches_seenName :
    Reaches listParser 9 "file" commaFirst (headOf seenName) seenName := by
  have hupdate : updateTable.Returns listParser () tabled :=
    Run.returns_of_result (by decide +kernel)
  have hid : (tabled.grammar.find? "file").map (·.id) = some ⟨"file", 0⟩ := by decide +kernel
  obtain ⟨r, hrule, hid⟩ := Option.map_eq_some_iff.mp hid
  have hbegun : Reaches listParser 9 "file" commaFirst entry begun :=
    .start hupdate hrule (by rw [hid]; decide +kernel)
  have hinclude : Reaches listParser 9 "file" commaFirst (headOf seenInclude) seenInclude :=
    hbegun.next (Run.returns_of_result (by decide +kernel))
  exact hinclude.next (Run.returns_of_result (by decide +kernel))

/-- And then the parser looks again, at another token. -/
private theorem looksAgain_seenName :
    LooksAgain 9 seenName (headOf seenName) (goneOn.renewed (headOf seenName)) comma
      lookedAgain := by
  have hfirst : (nextToken 9).Returns seenName wordX lookedUp :=
    Run.returns_of_result (by decide +kernel)
  have hlook : ((headOf seenName).state.transition? lookedUp.keywordKinds wordX).map (·.loopBack) =
      some true := by
    decide +kernel
  obtain ⟨t, ht, hloop⟩ := Option.map_eq_some_iff.mp hlook
  have hfinish : (finish 9 (some wordX)).Returns lookedUp false goneOn :=
    Run.returns_of_result (by decide +kernel)
  have hnext : (nextToken 9).Returns goneOn comma lookedAgain :=
    Run.returns_of_result (by decide +kernel)
  exact .intro hfirst ht hloop hfinish hnext

/-- The discipline does not hold of every parse: here the list is completed without its
semicolon. -/
theorem not_disciplined_including :
    ¬ ∀ site p, Reaches listParser 9 "file" commaFirst site p →
      p.Disciplined site ∧ ∀ f, Completes 9 p site f → f.site.state.reducible = true := by
  intro h
  have hlength : (lookedAgain.stack.getD []).length = 3 := by decide +kernel
  have hopen : (lookedAgain.stack.getD []).head?.map (·.site.state.reducible) = some false := by
    decide +kernel
  cases hstack : lookedAgain.stack.getD [] with
  | nil =>
    rw [hstack] at hlength
    cases hlength
  | cons f below =>
    rw [hstack] at hlength hopen
    obtain ⟨file, root, rfl⟩ := List.length_eq_two.mp (Nat.succ.inj hlength)
    have hback : (giveBack (some comma)).Returns lookedAgain ()
        ((giveBack (some comma)).run lookedAgain).state :=
      Run.returns_of_result (by decide +kernel)
    have hcompletes : Completes 9 seenName (headOf seenName) f :=
      .late looksAgain_seenName (by decide +kernel) (by decide +kernel)
        ⟨_, file, [root], hback, stack_eq_some hstack⟩
    rw [List.head?_cons, Option.map_some, (h _ _ reaches_seenName).2 f hcompletes] at hopen
    cases hopen

end Parse

end Machine

end Parser

end GrammarEngine
