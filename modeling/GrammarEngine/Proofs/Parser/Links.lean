import Mathlib.Data.List.Chain
import GrammarEngine.Proofs.Parser.Growth

/-!
# How the frames of a stack hang together

A frame above that of the start rule is inside a pattern, and unless it is the innermost one it
stands at a reference to the rule of the frame above it. Its action is that of its pattern
(`Linked`). Nothing is said here about what the frames have collected, nor about the grammar as it
is now: the tables of the frames may be of different times, as long as what their states stand for
is known (`Known`).

Main results:

* `linked_cons_iff` — a frame fits on a stack if the innermost frame there refers to its rule.
* `Pushes.linked` — the frames that are pushed along a way of a grammar fit.
* `finish_grows` — completing a frame leaves the frames below it as they are.
-/

namespace GrammarEngine

/-- A frame stands at a reference to the rule of a name. -/
def Frame.RefersTo {σ : Type} (f : Frame σ) (name : String) : Prop :=
  f.site.state.tokens[f.key.index]? = some ⟨.reference, name⟩

namespace Parser

open Grammar

variable {σ : Type} {p p' : Parser σ}

-- ---------------------------------------------------------------------------
-- Stacks that hang together
-- ---------------------------------------------------------------------------

/-- The action is that of the pattern of a state; at the entry of a rule there is none. -/
def ActsFor (p : Parser σ) (k : Key) (action : Option (Action σ)) : Prop :=
  match k.pattern with
  | none => action = none
  | some _ => ∃ q, p.patternOf? k = some q ∧ action = q.action

/-- Frames, the innermost first, that hang together. The last one is that of the start rule. -/
structure Linked (p : Parser σ) (frames : List (Frame σ)) : Prop where
  /-- A frame below another one stands at a reference to its rule. -/
  refers : frames.dropLast.IsChain fun upper lower => lower.RefersTo upper.key.rule.name
  inside : ∀ f ∈ frames.dropLast, f.key.pattern.isSome
  acts : ∀ f ∈ frames, p.ActsFor f.key f.action

/-- The innermost frame stands at a reference to a rule of this name, if it is not that of
the start rule. -/
def Waits (frames : List (Frame σ)) (name : String) : Prop :=
  ∀ f ∈ frames.dropLast.head?, f.RefersTo name

theorem waits_nil (name : String) : Waits ([] : List (Frame σ)) name :=
  fun _ hf => (Option.not_mem_none _ hf).elim

theorem waits_singleton (f : Frame σ) (name : String) : Waits [f] name :=
  fun _ hf => (Option.not_mem_none _ hf).elim

/-- The frame on top refers to the rule that is waited for. -/
theorem waits_cons {f : Frame σ} {frames : List (Frame σ)} {name : String} (h : f.RefersTo name) :
    Waits (f :: frames) name := by
  cases frames with
  | nil => exact waits_singleton f name
  | cons lower below =>
    intro f' hf'
    rw [← Option.mem_some_iff.mp hf']
    exact h

/-- One frame alone waits for nobody. -/
theorem linked_singleton_iff {f : Frame σ} : p.Linked [f] ↔ p.ActsFor f.key f.action := by
  constructor
  · intro h
    exact h.acts f (List.mem_singleton_self f)
  · intro h
    refine ⟨.nil, fun _ hf => (List.not_mem_nil hf).elim, fun f' hf' => ?_⟩
    rw [List.mem_singleton.mp hf']
    exact h

/-- **A frame is linked** to the ones below if the next one waits for its rule, and it has a
pattern. -/
theorem linked_cons_iff {f : Frame σ} {frames : List (Frame σ)} (hne : frames ≠ []) :
    p.Linked (f :: frames) ↔
      p.Linked frames ∧ Waits frames f.key.rule.name ∧ f.key.pattern.isSome ∧
      p.ActsFor f.key f.action := by
  have hdrop : (f :: frames).dropLast = f :: frames.dropLast := List.dropLast_cons_of_ne_nil hne
  constructor
  · intro h
    obtain ⟨hrefers, hinside, hacts⟩ := h
    rw [hdrop, List.isChain_cons] at hrefers
    rw [hdrop, List.forall_mem_cons] at hinside
    rw [List.forall_mem_cons] at hacts
    exact ⟨⟨hrefers.2, hinside.2, hacts.2⟩, hrefers.1, hinside.1, hacts.1⟩
  · rintro ⟨⟨hrefers, hinside, hacts⟩, hwaits, hpattern, haction⟩
    refine ⟨?_, ?_, List.forall_mem_cons.mpr ⟨haction, hacts⟩⟩
    · rw [hdrop, List.isChain_cons]
      exact ⟨hwaits, hrefers⟩
    · rw [hdrop, List.forall_mem_cons]
      exact ⟨hpattern, hinside⟩

/-- Whether a frame fits on a stack depends on the rule and the pattern of its state only. -/
theorem linked_cons_congr {f f' : Frame σ} {frames : List (Frame σ)}
    (hrule : f'.key.rule = f.key.rule)
    (hpattern : f'.key.pattern = f.key.pattern) (haction : f'.action = f.action) :
    p.Linked (f' :: frames) ↔ p.Linked (f :: frames) := by
  have hacts : p.ActsFor f'.key f'.action ↔ p.ActsFor f.key f.action := by
    unfold ActsFor patternOf?
    rw [hrule, hpattern, haction]
  cases frames with
  | nil => rw [linked_singleton_iff, linked_singleton_iff, hacts]
  | cons lower below =>
    rw [linked_cons_iff (List.cons_ne_nil _ _), linked_cons_iff (List.cons_ne_nil _ _), hrule,
      hpattern, hacts]

/-- A frame may be moved into a pattern if its action is that of the pattern, and the frame below
stands at a reference to the rule. -/
theorem linked_moved_iff {f : Frame σ} {below : List (Frame σ)} {site : Site}
    (hlinked : p.Linked (f :: below)) (hinside : site.state.key.pattern.isSome) :
    p.Linked ({ f with site := site } :: below) ↔
      p.ActsFor site.state.key f.action ∧ Waits below site.state.key.rule.name := by
  cases below with
  | nil =>
    rw [linked_singleton_iff]
    exact (and_iff_left (waits_nil _)).symm
  | cons lower rest =>
    rw [linked_cons_iff (List.cons_ne_nil _ _)] at hlinked ⊢
    constructor
    · rintro ⟨-, hwaits, -, hacts⟩
      exact ⟨hacts, hwaits⟩
    · rintro ⟨hacts, hwaits⟩
      exact ⟨hlinked.1, hwaits, hinside, hacts⟩

/-- What is put into the slots of the innermost frame does not matter. -/
theorem linked_insert_iff {f : Frame σ} {frames : List (Frame σ)} {index : Nat} {v : Value}
    {position : Option Position} {several : Bool} :
    p.Linked (f.insert index v position several :: frames) ↔ p.Linked (f :: frames) :=
  linked_cons_congr rfl rfl rfl

/-- A frame acts as its state says also when patterns are added. -/
theorem ActsFor.retains {k : Key} {action : Option (Action σ)} (h : p.ActsFor k action)
    (hretains : Retains p p') : p'.ActsFor k action := by
  unfold ActsFor at h ⊢
  split at h
  · exact h
  · obtain ⟨q, hq, haction⟩ := h
    obtain ⟨q', hq', hsame⟩ := hretains.exists_pattern hq
    exact ⟨q', hq', haction.trans (Pattern.action_of_undocumented hsame).symm⟩

theorem Linked.retains {frames : List (Frame σ)} (h : p.Linked frames) (hretains : Retains p p') :
    p'.Linked frames := ⟨h.refers, h.inside, fun f hf => (h.acts f hf).retains hretains⟩

-- ---------------------------------------------------------------------------
-- Stacks whose states are known
-- ---------------------------------------------------------------------------

/-- The states of the table and of all frames are known. -/
structure Known (p : Parser σ) : Prop where
  table : p.KnowsTable p.table
  frames : ∀ f ∈ p.stack.getD [], p.KnowsSite f.site

/-- The parse is at the state of the innermost frame. -/
def AtTop (p : Parser σ) (site : Site) : Prop :=
  ∃ f below, p.stack = some (f :: below) ∧ site = f.site

/-- The site at the top is one of a frame. -/
theorem Known.site {site : Site} (h : p.Known) (htop : p.AtTop site) : p.KnowsSite site := by
  obtain ⟨f, below, hstack, rfl⟩ := htop
  refine h.frames f ?_
  rw [hstack]
  exact List.mem_cons_self ..

/-- It is enough that patterns are retained, and that no other frames come in. -/
theorem Known.retains (h : p.Known) (hretains : Retains p p') (htable : p'.table = p.table)
    (hstack : ∀ f ∈ p'.stack.getD [], f ∈ p.stack.getD []) : p'.Known where
  table := by
    rw [htable]
    exact h.table.retains hretains
  frames f hf := (h.frames f (hstack f hf)).retains hretains

/-- Frames that are kept are known as before. -/
theorem knows_of_kept {frames frames' : List (Frame σ)}
    (hkept : List.Forall₂ (FrameKept p p') frames frames')
    (h : ∀ f ∈ frames, p.KnowsSite f.site) : ∀ f ∈ frames', p'.KnowsSite f.site := by
  induction hkept with
  | nil => exact fun f hf => (List.not_mem_nil hf).elim
  | cons hf _ ih =>
    rw [List.forall_mem_cons] at h ⊢
    exact ⟨hf.site h.1, ih h.2⟩

theorem Known.grows (h : p.Known) (hgrows : Grows p p') : p'.Known :=
  ⟨hgrows.table h.table, knows_of_kept hgrows.frames h.frames⟩

/-- A state that was renewed shows the same elements. -/
theorem RefersTo.kept {f f' : Frame σ} {name : String}
    (h : f.RefersTo name) (hinside : f.key.pattern.isSome) (hretains : Retains p p')
    (hsite : p.KnowsSite f.site) (hkept : FrameKept p p' f f') : f'.RefersTo name := by
  obtain ⟨q, hq, htokens⟩ := hsite.exists_pattern hinside
  have hkey : f'.site.state.key = f.site.state.key := hkept.key
  obtain ⟨q', hq', htokens'⟩ := (hkept.site hsite).exists_pattern (by rw [hkey]; exact hinside)
  rw [hkey, hretains _ q hq] at hq'
  cases hq'
  unfold Frame.RefersTo at h ⊢
  rw [htokens', hkept.key, ← htokens]
  exact h

/-- Frames that are kept go on hanging together, and waiting for the same rule. -/
theorem Linked.kept {frames frames' : List (Frame σ)}
    (h : p.Linked frames) (hretains : Retains p p') (hsites : ∀ f ∈ frames, p.KnowsSite f.site)
    (hkept : List.Forall₂ (FrameKept p p') frames frames') :
    p'.Linked frames' ∧ ∀ name, Waits frames name → Waits frames' name := by
  induction hkept with
  | nil => exact ⟨h.retains hretains, fun _ hwaits => hwaits⟩
  | @cons f f' below below' hf hbelow ih =>
    cases hbelow with
    | nil =>
      rw [linked_singleton_iff] at h ⊢
      rw [hf.key, hf.action]
      exact ⟨h.retains hretains, fun name _ => waits_singleton _ name⟩
    | cons hlower hrest =>
      rw [linked_cons_iff (List.cons_ne_nil _ _)] at h ⊢
      obtain ⟨hlinked, hwaits, hinside, hacts⟩ := h
      rw [List.forall_mem_cons] at hsites
      obtain ⟨hlinked', hwaits'⟩ := ih hlinked hsites.2
      refine ⟨⟨hlinked', ?_, ?_, ?_⟩, fun name hname f'' hf'' => ?_⟩
      · rw [hf.key]
        exact hwaits' _ hwaits
      · rw [hf.key]
        exact hinside
      · rw [hf.key, hf.action]
        exact hacts.retains hretains
      · obtain rfl := Option.mem_some_iff.mp hf''
        exact RefersTo.kept (hname f (Option.mem_some_iff.mpr rfl)) hinside hretains hsites.1 hf

theorem Linked.grows (h : p.Linked (p.stack.getD [])) (hknown : p.Known) (hgrows : Grows p p') :
    p'.Linked (p'.stack.getD []) ∧
      ∀ name, Waits (p.stack.getD []) name → Waits (p'.stack.getD []) name :=
  h.kept hgrows.retains hknown.frames hgrows.frames

/-- The state that the parse looks from again is known as well. -/
theorem Known.renewed {site : Site} (h : p.Known) (hsite : p.KnowsSite site) :
    p.KnowsSite (p.renewed site) ∧ (p.renewed site).state.key = site.state.key := by
  unfold Parser.renewed
  cases hfind : p.table.find? site.state.key with
  | none => exact ⟨hsite, rfl⟩
  | some state =>
    have hkey := Table.key_of_find?_eq_some hfind
    exact ⟨⟨h.table, rfl, by rw [hkey]; exact hfind⟩, hkey⟩

/-- A state with a transition that starts its rule over is in a pattern that may end there. -/
theorem KnowsSite.of_loopBack {site : Site} {t : Transition} (hsite : p.KnowsSite site)
    (ht : t ∈ site.state.transitions) (hloop : t.loopBack = true) :
    site.state.reducible = true ∧ site.state.key.pattern.isSome := by
  obtain ⟨g, htable, -⟩ := hsite.known
  have hpath := (htable.path _ hsite.sits.mem t).mp ht
  refine ⟨(htable.reducible _ hsite.sits.mem).mpr (hpath.of_loopBack hloop).1, ?_⟩
  generalize site.state.key = k at hpath
  cases hpath with
  | entry => cases hloop
  | onward => cases hloop
  | again => rfl

-- ---------------------------------------------------------------------------
-- Frames that are pushed
-- ---------------------------------------------------------------------------

/-- A site is known if the table that it is looked up in is. -/
theorem knowsSite_of_follow? {site next : Site} {k : Key} (hsite : p.KnowsTable site.table)
    (h : site.follow? k = some next) : p.KnowsSite next := by
  obtain ⟨hsits, -⟩ := sits_of_follow? rfl h
  have htable := hsits.table_eq
  exact ⟨by rw [htable]; exact hsite, by rw [htable]; exact hsits⟩

/-- The states that frames are pushed for are known. -/
theorem Pushes.knows {site : Site} {token : Token} {keys : List Key}
    {frames frames' : List (Frame σ)}
    (h : Pushes p site token keys frames frames') (hsite : p.KnowsTable site.table)
    (hframes : ∀ f ∈ frames, p.KnowsSite f.site) : ∀ f ∈ frames', p.KnowsSite f.site := by
  induction h with
  | nil => exact hframes
  | cons hnext _ _ ih =>
    exact ih (List.forall_mem_cons.mpr ⟨knowsSite_of_follow? hsite hnext, hframes⟩)

/-- A state of a pattern shows the elements of that. -/
theorem tokens_of_follow? {g : Grammar (Action σ)} (hg : p.KnowsGrammar g) {site next : Site}
    (hsite : p.KnowsTable site.table) {r : Rule (Action σ)} (hr : r ∈ g.rules) {pattern index : Nat}
    {q : Pattern (Action σ)} (hq : r.patterns[pattern]? = some q)
    (hnext : site.follow? ⟨r.id, some pattern, index⟩ = some next) :
    next.state.tokens = q.tokens := by
  obtain ⟨-, hkey⟩ := sits_of_follow? rfl hnext
  obtain ⟨q', hq', htokens⟩ := (knowsSite_of_follow? hsite hnext).exists_pattern (by rw [hkey]; rfl)
  rw [hkey, hg r hr pattern q hq index] at hq'
  cases hq'
  exact htokens

/-- A frame at such a state refers to what the element refers to. -/
theorem refersTo_of_follow? {g : Grammar (Action σ)} (hg : p.KnowsGrammar g) {site next : Site}
    (hsite : p.KnowsTable site.table) {r : Rule (Action σ)} (hr : r ∈ g.rules) {pattern index : Nat}
    {q : Pattern (Action σ)} (hq : r.patterns[pattern]? = some q) {d : Descriptor}
    (hd : q.tokens[index]? = some d) (ht : d.isTerminal = false)
    (hnext : site.follow? ⟨r.id, some pattern, index⟩ = some next) {f : Frame σ}
    (hf : f.site = next) : f.RefersTo d.name := by
  obtain ⟨-, hkey⟩ := sits_of_follow? rfl hnext
  have hkind : d.kind = .reference := by simpa [Descriptor.isTerminal] using ht
  unfold Frame.RefersTo Frame.key
  rw [hf, tokens_of_follow? hg hsite hr hq hnext, hkey, hd, ← hkind]

/-- The frame that is pushed for an element of a known grammar. -/
structure Fresh (p : Parser σ) (f : Frame σ) (r : Rule (Action σ))
    (pattern index : Nat) : Prop where
  key : f.key = ⟨r.id, some pattern, index⟩
  acts : p.ActsFor f.key f.action

/-- **A frame that is pushed** is fresh: nothing is in its slots. -/
theorem fresh_of_pushed {token : Token} {site next : Site} {r : Rule (Action σ)}
    {pattern index : Nat} {q : Pattern (Action σ)}
    (hnext : site.follow? ⟨r.id, some pattern, index⟩ = some next)
    (hpattern : p.patternOf? next.state.key = some q) :
    Fresh p { site := next, action := q.action, first := token.position } r pattern index := by
  obtain ⟨-, hkey⟩ := sits_of_follow? rfl hnext
  refine ⟨hkey, ?_⟩
  unfold ActsFor Frame.key
  rw [hkey] at hpattern ⊢
  exact ⟨q, hpattern, rfl⟩

/-- It fits if the innermost frame waits for its rule. -/
theorem Fresh.linked {f : Frame σ} {frames : List (Frame σ)} {r : Rule (Action σ)}
    {pattern index : Nat}
    (h : Fresh p f r pattern index) (hne : frames ≠ []) (hlinked : p.Linked frames)
    (hwaits : Waits frames r.name) : p.Linked (f :: frames) := by
  have hacts := h.acts
  rw [linked_cons_iff hne]
  rw [h.key] at hacts ⊢
  exact ⟨hlinked, hwaits, rfl, hacts⟩

/--
**Pushing.** Frames that are pushed along a way into a rule of a known grammar hang together with
the stack, if the innermost frame there waits for that rule.
-/
theorem Pushes.linked {g : Grammar (Action σ)} (hg : p.KnowsGrammar g) {site : Site} {token : Token}
    (hsite : p.KnowsTable site.table) {target : Key} {terminal : Descriptor} {chain : List Key}
    {s : Rule (Action σ)} {inner : Nat}
    (hs : s ∈ g.rules) (hway : g.Way s inner 0 chain target terminal)
    {frames frames' : List (Frame σ)} (hne : frames ≠ []) (hlinked : p.Linked frames)
    (hwaits : Waits frames s.name) (h : Pushes p site token (chain ++ [target]) frames frames') :
    p.Linked frames' := by
  induction chain generalizing s inner frames with
  | nil =>
    obtain ⟨q, index, d, -, -, -, -, rfl, -⟩ := hway.of_nil
    cases h with
    | cons hnext hpattern h =>
      cases h with
      | nil => exact (fresh_of_pushed hnext hpattern).linked hne hlinked hwaits
  | cons k chain ih =>
    obtain ⟨q, index, d, s', inner', hq, hd, -, ht, hs', rfl, hway'⟩ := hway.of_cons
    cases h with
    | cons hnext hpattern h =>
      refine ih (mem_of_find?_eq_some hs') hway' (List.cons_ne_nil _ _)
        ((fresh_of_pushed hnext hpattern).linked hne hlinked hwaits) ?_ h
      rw [name_of_find?_eq_some hs']
      exact waits_cons (refersTo_of_follow? hg hsite hs hq hd ht hnext rfl)

/-- Frames that are pushed do not mend what is below them. -/
theorem Pushes.linked_below {site : Site} {token : Token} {keys : List Key}
    {frames frames' : List (Frame σ)} (h : Pushes p site token keys frames frames')
    (hne : frames ≠ []) (hlinked : p.Linked frames') : p.Linked frames := by
  induction h with
  | nil => exact hlinked
  | cons _ _ _ ih => exact ((linked_cons_iff hne).mp (ih (List.cons_ne_nil _ _) hlinked)).1

/-- The states of a route are known, also if the innermost frame moves. -/
theorem Enters.knows {site : Site} {token : Token} {moves : Bool} {route : List Key}
    {frames frames' : List (Frame σ)} (h : Enters p site token moves route frames frames')
    (hsite : p.KnowsTable site.table) (hframes : ∀ f ∈ frames, p.KnowsSite f.site) :
    ∀ f ∈ frames', p.KnowsSite f.site := by
  cases h with
  | fresh h => exact h.knows hsite hframes
  | moves hnext h =>
    rw [List.forall_mem_cons] at hframes
    refine h.knows hsite (List.forall_mem_cons.mpr ⟨?_, hframes.2⟩)
    exact knowsSite_of_follow? hsite hnext

/--
**Moving on.** A frame that moves along a way in a pattern, with the frames that are pushed above
it, hangs together with the rest exactly if a frame of that pattern with its action does.
-/
theorem Enters.linked_iff {g : Grammar (Action σ)} (hg : p.KnowsGrammar g) {site : Site}
    {token : Token} (hsite : p.KnowsTable site.table) {target : Key} {terminal : Descriptor}
    {chain : List Key} {r : Rule (Action σ)} {pattern index : Nat} (hr : r ∈ g.rules)
    (hway : g.Way r pattern index chain target terminal)
    {f f' : Frame σ} {below frames : List (Frame σ)} (hrule : f'.key.rule = r.id)
    (hpattern : f'.key.pattern = some pattern) (haction : f'.action = f.action)
    (h : Enters p site token true (chain ++ [target]) (f :: below) frames) :
    p.Linked frames ↔ p.Linked (f' :: below) := by
  -- where the frame has moved to
  have hmoved : ∀ {next index'}, site.follow? ⟨r.id, some pattern, index'⟩ = some next →
      (p.Linked ({ f with site := next } :: below) ↔ p.Linked (f' :: below)) := by
    intro next index' hnext
    obtain ⟨-, hkey⟩ := sits_of_follow? rfl hnext
    have hkey : ({ f with site := next } : Frame σ).key = ⟨r.id, some pattern, index'⟩ := hkey
    exact linked_cons_congr (by rw [hkey, hrule]) (by rw [hkey, hpattern]) haction.symm
  obtain ⟨q, hq, -⟩ := hway.exists_element
  obtain ⟨next, d, -, hd, -, ⟨-, rfl, rfl, -⟩ | ⟨s, inner, rest, ht, hs, rfl, hway'⟩⟩ :=
    hway.exists_next hq
  · cases h with
    | moves hnext h =>
      cases h with
      | nil => exact hmoved hnext
  · cases h with
    | moves hnext h =>
      rw [← hmoved hnext]
      refine ⟨h.linked_below (List.cons_ne_nil _ _), fun hlinked => ?_⟩
      refine h.linked hg hsite (mem_of_find?_eq_some hs) hway' (List.cons_ne_nil _ _) hlinked ?_
      rw [name_of_find?_eq_some hs]
      exact waits_cons (refersTo_of_follow? hg hsite hr hq hd ht hnext rfl)

-- ---------------------------------------------------------------------------
-- Frames that are completed
-- ---------------------------------------------------------------------------

section Machine

variable [TokenSource σ]

/-- Giving a token back changes the source only. -/
theorem giveBack_eq {token : Option Token} {u : Unit} (h : (giveBack token).Returns p u p') :
    ∃ source, p' = { p with source := source } := by
  cases token with
  | none =>
    obtain ⟨-, rfl⟩ := Run.returns_pure.mp h
    exact ⟨p.source, rfl⟩
  | some token =>
    obtain ⟨s, s', -, -, rfl⟩ := giveBack_returns h
    exact ⟨some s', rfl⟩

/-- Completing a frame, with its action, leaves the frames on the stack as they are. -/
theorem reduce_grows {frame : Frame σ} {u : Unit}
    (h : (reduce frame).Returns p u p') : Grows p p' := by
  obtain ⟨-, values, result, p₁, parent, rest, -, hcall, hstack, rfl⟩ := reduce_returns h
  have hinsert : Grows p₁ { p₁ with
      stack := some (parent.insert parent.key.index result frame.first
        (p₁.repeats frame.key.rule frame.site.state.repeats) :: rest) } := by
    have hretains : Retains p₁ { p₁ with
        stack := some (parent.insert parent.key.index result frame.first
          (p₁.repeats frame.key.rule frame.site.state.repeats) :: rest) } :=
      fun _ _ hq => hq
    refine ⟨hretains, fun hknown => hknown.retains hretains, ?_⟩
    rw [hstack]
    exact .cons ⟨rfl, rfl, fun hsite => hsite.retains hretains⟩
      (List.forall₂_same.mpr fun f _ => ⟨rfl, rfl, fun hsite => hsite.retains hretains⟩)
  refine Grows.trans ?_ hinsert
  obtain ⟨-, -, rfl⟩ | ⟨action, p₂, -, hperform, rfl⟩ := callAction_returns hcall
  · exact .refl _
  · refine .trans (.trans ?_ (perform_grows hperform)) ?_
    · exact .of_patternOf? (fun _ => rfl) rfl rfl
    · exact .of_patternOf? (fun _ => rfl) rfl rfl

/-- Completing a frame leaves the frames below it as they are. The frame of the start rule stays. -/
theorem finish_grows {rounds : Nat} {token : Option Token} {done : Bool}
    (h : (finish rounds token).Returns p done p') :
    ∃ f parent below, Grows { p with stack := some (parent :: below) } p' ∧
      ((done = true ∧ p.stack = some [parent] ∧ below = []) ∨
        (done = false ∧ p.stack = some (f :: parent :: below))) := by
  obtain ⟨p₁, hback, hcases⟩ := finish_returns h
  obtain ⟨source, rfl⟩ := giveBack_eq hback
  obtain ⟨root, p₂, hstack, hdone, hend, rfl⟩ | ⟨f, parent, below, hstack, hdone, hreduce⟩ := hcases
  · obtain ⟨next, -, hnext⟩ := expectEnd_returns hend
    obtain ⟨s, s', -, -, rfl⟩ := nextToken_returns hnext
    exact ⟨root, root, [], .of_patternOf? (fun _ => rfl) rfl rfl, .inl ⟨hdone, hstack, rfl⟩⟩
  · refine ⟨f, parent, below, .trans ?_ (reduce_grows hreduce), .inr ⟨hdone, hstack⟩⟩
    exact .of_patternOf? (fun _ => rfl) rfl rfl

end Machine

end Parser

end GrammarEngine
