import GrammarEngine.Grammar.Clause
import GrammarEngine.Grammar.Synopsis
import GrammarEngine.Proofs.Grammar.Vanishing
import GrammarEngine.Proofs.SideBySide

/-!
# Rendering comes to an end

Patterns and rules are rendered by turns, and references may lead in circles. A pattern is not
rendered inside itself, so along any nesting the patterns being rendered are different ones; the
patterns of the grammar that are not among them grow fewer with every level. That is the measure,
and the bound on the nesting is never reached.

All of rendering is gone through once, for two renderings of the same pattern side by side that
differ in the bound only. Between the steps the patterns being rendered are what they were, and the
arguments collected so far have only had some added behind them, under names of their own
(`Manual.Within`). The two renderings agree in the end if the bounds are large enough
(`renders_elementsSynopsis`).

Main results:

* `Clause.shown_apply` — what the manual shows of a pattern is there, whatever was said
  about its rule.
* `renders_synopsis` — rendering a pattern, level by level.
* `patternSynopsis_ends` — rendering ends on every grammar, and leaves the manual in order.
-/

namespace GrammarEngine

variable {α β : Type}

-- ---------------------------------------------------------------------------
-- Patterns that can be shown
-- ---------------------------------------------------------------------------

/-- What the manual shows of a pattern is there: every element has a place for its documentation,
and the last element shown is one of the pattern. -/
structure Pattern.Shown (p : Pattern α) : Prop where
  args : p.args.length = p.tokens.length
  last : p.lastShown < p.tokens.length

instance (p : Pattern α) : Decidable p.Shown :=
  decidable_of_iff (p.args.length = p.tokens.length ∧ p.lastShown < p.tokens.length)
    ⟨fun h => ⟨h.1, h.2⟩, fun h => ⟨h.args, h.last⟩⟩

/-- All of a new pattern is shown. -/
theorem Pattern.shown_ofTokens (tokens : List Descriptor) (action : Option α) :
    (ofTokens tokens action).Shown where
  args := List.length_map ..
  last := by
    show (tokens.length : Int) - 1 < tokens.length
    omega

/-- An argument is documented in its own place. -/
theorem Pattern.Shown.setArg {p p' : Pattern α} (hp : p.Shown) {index : Int} {doc : ArgDoc}
    (h : p.setArg index doc = .ok p') : p'.Shown := by
  unfold Pattern.setArg at h
  split at h
  · obtain rfl := Except.ok.inj h
    exact ⟨(List.length_set ..).trans hp.args, hp.last⟩
  · cases h

/-- Whatever changes the latest pattern and keeps it fit to be shown keeps all patterns
of the rule so. -/
theorem Rule.shown_changeLast {r r' : Rule α} {f : Pattern α → Except Fault (Pattern α)}
    (hf : ∀ p p', p.Shown → f p = .ok p' → p'.Shown) (hr : ∀ p ∈ r.patterns, p.Shown)
    (h : r.changeLast f = .ok r') : ∀ p ∈ r'.patterns, p.Shown := by
  unfold changeLast at h
  split at h
  · cases h
  · next last hlast =>
    obtain ⟨changed, hchanged, h⟩ := bind_eq_ok.mp h
    obtain rfl := Except.ok.inj h
    intro p hp
    rcases List.mem_append.mp hp with hp | hp
    · exact hr p ((List.dropLast_subset _) hp)
    · obtain rfl := List.mem_singleton.mp hp
      exact hf last _ (hr last (List.mem_of_getLast? hlast)) hchanged

/-- A remark leaves all patterns fit to be shown: the last element shown can only be set to one
that there is. -/
theorem Remark.shown_apply {remark : Remark} {r r' : Rule α} (h : remark.apply r = .ok r')
    (hr : ∀ p ∈ r.patterns, p.Shown) : ∀ p ∈ r'.patterns, p.Shown := by
  cases remark with
  | arg index about => exact Rule.shown_changeLast (fun p p' hp => hp.setArg) hr h
  | lastShown index =>
    refine Rule.shown_changeLast (fun p p' hp hchange => ?_) hr h
    split at hchange
    · cases hchange
    · next hlt =>
      obtain rfl := Except.ok.inj hchange
      exact ⟨hp.args, Int.not_le.mp hlt⟩
  | describe text =>
    refine Rule.shown_changeLast (fun p p' hp hchange => ?_) hr h
    split at hchange
    · cases hchange
    · obtain rfl := Except.ok.inj hchange
      exact ⟨hp.args, hp.last⟩
  | support level =>
    refine Rule.shown_changeLast (fun p p' hp hchange => ?_) hr h
    obtain ⟨level', -, hchange⟩ := bind_eq_ok.mp hchange
    obtain rfl := Except.ok.inj hchange
    exact ⟨hp.args, hp.last⟩
  | doc keyword text | also words | sample file tag =>
    refine Rule.shown_changeLast (fun p p' hp hchange => ?_) hr h
    obtain rfl := Except.ok.inj hchange
    exact ⟨hp.args, hp.last⟩

/-- **What the manual shows is there.** Whatever is said about a rule, its patterns are
fit to be shown. -/
theorem Clause.shown_apply {clause : Clause α} {r r' : Rule α} (h : clause.apply r = .ok r')
    (hr : ∀ p ∈ r.patterns, p.Shown) : ∀ p ∈ r'.patterns, p.Shown := by
  cases clause with
  | pattern elements action =>
    obtain ⟨new, hnew, h⟩ := bind_eq_ok.mp h
    obtain ⟨tokens, -, hnew⟩ := bind_eq_ok.mp hnew
    obtain rfl := Except.ok.inj hnew
    obtain rfl := Except.ok.inj h
    exact List.forall_mem_append.mpr ⟨hr, List.forall_mem_singleton.mpr (Pattern.shown_ofTokens ..)⟩
  | optional | repeatable =>
    obtain rfl := Except.ok.inj h
    exact hr
  | remark remark => exact remark.shown_apply h hr

/-- An index that is not negative and in range finds its element. -/
theorem elementAt_eq_ok {items : List β} {index : Int} (hindex : 0 ≤ index)
    (hlt : index < items.length) : ∃ item ∈ items, elementAt items index = .ok item := by
  have hplace : index.toNat < items.length := by omega
  refine ⟨items[index.toNat], List.getElem_mem hplace, ?_⟩
  unfold elementAt
  rw [if_pos hindex]
  simp only [if_neg (Int.not_lt.mpr hindex), List.getElem?_eq_getElem hplace]

/-- The elements that the manual shows are there. -/
theorem Pattern.Shown.element {p : Pattern α} (hp : p.Shown) {index : Int} (hindex : 0 ≤ index)
    (hlast : index ≤ p.lastShown) : ∃ d ∈ p.tokens, elementAt p.tokens index = .ok d := by
  have := hp.last
  exact elementAt_eq_ok hindex (by omega)

/-- So are the places for their documentation. -/
theorem Pattern.Shown.arg {p : Pattern α} (hp : p.Shown) {index : Int} (hindex : 0 ≤ index)
    (hlast : index ≤ p.lastShown) : ∃ arg ∈ p.args, elementAt p.args index = .ok arg := by
  have := hp.last
  have := hp.args
  exact elementAt_eq_ok hindex (by omega)

-- ---------------------------------------------------------------------------
-- Between the steps of a rendering
-- ---------------------------------------------------------------------------

/-- While some patterns are being rendered, arguments are collected behind those that were there at
some time, and have different names. -/
structure Manual.Within (rendering : List PatternId) (docs : List ArgDoc) (m : Manual) : Prop where
  rendering_eq : m.rendering = rendering
  keeps : docs <+: m.docs
  distinct : (m.docs.map ArgDoc.name).Nodup

/-- Two renderings come to the same wherever some patterns are being rendered, and leave the manual
in order. If the same is a fault, it is one of some faults. -/
def Renders (rendering : List PatternId) (docs : List ArgDoc) (ok : Fault → Prop)
    (x y : Run Manual β) : Prop :=
  ∀ m, m.Within rendering docs → Run.Alongside (Run.Same (Manual.Within rendering docs)) ok x m y m

variable {γ : Type} {rendering : List PatternId} {docs : List ArgDoc} {ok : Fault → Prop}

theorem renders_pure (b : β) : Renders rendering docs ok (pure b) (pure b) :=
  fun _ hm => Run.alongside_pure b ⟨rfl, hm⟩

theorem Renders.bind {x y : Run Manual β} {f f' : β → Run Manual γ}
    (hx : Renders rendering docs ok x y) (hf : ∀ b, Renders rendering docs ok (f b) (f' b)) :
    Renders rendering docs ok (x >>= f) (y >>= f') :=
  fun m hm => (hx m hm).bind fun b m' _ ⟨hsame, hm'⟩ => hsame ▸ hf b m' hm'

theorem renders_mapM {f f' : γ → Run Manual β} (items : List γ)
    (hf : ∀ c ∈ items, Renders rendering docs ok (f c) (f' c)) :
    Renders rendering docs ok (items.mapM f) (items.mapM f') := by
  induction items with
  | nil => exact renders_pure []
  | cons c rest ih =>
    rw [List.mapM_cons, List.mapM_cons]
    refine (hf c (List.mem_cons_self ..)).bind fun b => ?_
    exact (ih fun d hd => hf d (List.mem_cons_of_mem _ hd)).bind fun bs => renders_pure (b :: bs)

/-- Documentation is added behind what was collected, under a name of its own, or it has no name. -/
theorem addDoc_cases (docs : List ArgDoc) (doc : ArgDoc) :
    addDoc docs doc = .error (.grammar .namelessArgument) ∨
      ∃ docs', addDoc docs doc = .ok docs' ∧ docs <+: docs' := by
  unfold addDoc
  split
  · exact .inl rfl
  · split
    · exact .inr ⟨docs, rfl, List.prefix_refl _⟩
    · exact .inr ⟨_, rfl, List.prefix_append ..⟩

/-- Collecting an argument is refused for want of a name only. -/
theorem renders_collect (hok : ok (.grammar .namelessArgument)) (doc : ArgDoc) :
    Renders rendering docs ok (Manual.collect doc) (Manual.collect doc) := by
  intro m hm
  refine Run.alongside_get_bind ?_
  rcases addDoc_cases m.docs doc with hfault | ⟨docs', hdocs, hprefix⟩
  · rw [hfault]
    exact Run.alongside_fail hok ⟨rfl, hm⟩
  · have hdistinct := addDoc_names hdocs hm.distinct
    rw [hdocs]
    exact Run.alongside_set ⟨rfl, hm.rendering_eq, hm.keeps.trans hprefix, hdistinct⟩

namespace Grammar

variable {g : Grammar α} {p : Pattern α}

-- ---------------------------------------------------------------------------
-- One level
-- ---------------------------------------------------------------------------

/-- All references of a pattern name rules of the grammar. -/
def Resolves (g : Grammar α) (p : Pattern α) : Prop :=
  ∀ d ∈ p.tokens, d.isTerminal = false → ∃ s, g.find? d.name = some s

instance (g : Grammar α) (p : Pattern α) : Decidable (g.Resolves p) :=
  decidable_of_iff (∀ d ∈ p.tokens, d.isTerminal = false → (g.find? d.name).isSome = true)
    (by simp only [Resolves, Option.isSome_iff_exists])

section Level

variable {render render' : PatternId → Pattern α → Run Manual String}
  (hok : ok (.grammar .namelessArgument))
  (hrender : ∀ r ∈ g.rules, ∀ pattern q, r.patterns[pattern]? = some q →
    Renders rendering docs ok (render (r.id, pattern) q) (render' (r.id, pattern) q))

include hrender

theorem renders_ruleSynopsis {r : Rule α} (hr : r ∈ g.rules) :
    Renders rendering docs ok (ruleSynopsis render r) (ruleSynopsis render' r) := by
  refine (renders_mapM _ fun item hitem => ?_).bind fun bodies => renders_pure _
  exact hrender r hr item.2 item.1 (List.mk_mem_zipIdx_iff_getElem?.mp hitem)

include hok

/-- An element that is shown is rendered: its documentation is collected, or the rule it refers
to is rendered. -/
theorem renders_elementSynopsis (hp : p.Shown) (href : g.Resolves p) {index : Int}
    (hindex : 0 ≤ index) (hlast : index ≤ p.lastShown) :
    Renders rendering docs ok (g.elementSynopsis render p index)
      (g.elementSynopsis render' p index) := by
  obtain ⟨d, hd, helement⟩ := hp.element hindex hlast
  obtain ⟨arg, -, harg⟩ := hp.arg hindex hlast
  have hpure {δ : Type} (b : δ) : (Run.ofExcept (.ok b) : Run Manual δ) = pure b := rfl
  unfold elementSynopsis
  simp only [helement, harg, hpure, pure_bind]
  cases arg with
  | some arg => exact (renders_collect hok _).bind fun _ => renders_pure _
  | none =>
    cases hkind : d.kind with
    | literal | category | endOfInput => exact renders_pure _
    | reference =>
      obtain ⟨s, hs⟩ := href d hd (by simp [Descriptor.isTerminal, hkind])
      simp only [hs]
      split
      · exact (renders_collect hok _).bind fun _ => renders_pure _
      · exact (renders_ruleSynopsis hrender (mem_of_find?_eq_some hs)).bind fun _ => renders_pure _

/-- The elements of a pattern from one on are rendered, up to the last that is shown. -/
theorem renders_elements (hp : p.Shown) (href : g.Resolves p) {skip : Int} (hskip : 0 ≤ skip) :
    Renders rendering docs ok (g.elementsSynopsis render p skip)
      (g.elementsSynopsis render' p skip) := by
  unfold elementsSynopsis
  dsimp only
  split
  · exact renders_pure _
  · next hcount =>
    obtain ⟨d, -, helement⟩ := hp.element hskip (by omega)
    have hpure : (Run.ofExcept (.ok d) : Run Manual Descriptor) = pure d := rfl
    simp only [helement, hpure, pure_bind]
    split
    · exact renders_pure _
    · refine (renders_mapM _ fun i hi => ?_).bind fun parts => renders_pure _
      have hi := List.mem_range.mp hi
      exact renders_elementSynopsis hok hrender hp href (by omega) (by omega)

end Level

/-- A pattern is rendered as a list inside itself. Anywhere else it joins the patterns being
rendered, for as long as its elements are, and leaves them again whatever these come to. -/
theorem renders_synopsis_succ {n k : Nat} {skip : Int} {id : PatternId}
    (h : id ∉ rendering → Renders (id :: rendering) docs ok
      (g.elementsSynopsis (g.synopsis n 0) p skip) (g.elementsSynopsis (g.synopsis k 0) p skip)) :
    Renders rendering docs ok (g.synopsis (n + 1) skip id p) (g.synopsis (k + 1) skip id p) := by
  intro m hm
  rw [synopsis, synopsis]
  refine Run.alongside_get_bind ?_
  rw [hm.rendering_eq]
  split
  · exact Run.alongside_pure _ ⟨rfl, hm⟩
  · next hnew =>
    have hnew : id ∉ rendering := fun hmem => hnew (List.contains_iff_mem.mpr hmem)
    have hinside := h hnew { m with rendering := id :: m.rendering }
      ⟨by rw [hm.rendering_eq], hm.keeps, hm.distinct⟩
    refine Run.alongside_modify_bind (Run.alongside_thenAlways hinside ?_)
    rintro after _ ⟨rfl, hafter⟩
    refine ⟨rfl, ?_, hafter.keeps, hafter.distinct⟩
    have hfilter : rendering.filter (· != id) = rendering := by
      refine List.filter_eq_self.mpr fun other hother => ?_
      rw [bne_iff_ne]
      rintro rfl
      exact hnew hother
    dsimp only
    rw [hafter.rendering_eq, List.filter_cons_of_neg (by simp), hfilter]

-- ---------------------------------------------------------------------------
-- All levels
-- ---------------------------------------------------------------------------

/-- The identities of all patterns. -/
def patternIds (g : Grammar α) : List PatternId :=
  g.rules.flatMap fun r => (List.range r.patterns.length).map fun pattern => (r.id, pattern)

/-- The patterns that are not being rendered. -/
def unrendered (g : Grammar α) (rendering : List PatternId) : List PatternId :=
  g.patternIds.filter fun id => id ∉ rendering

theorem mem_patternIds {r : Rule α} (hr : r ∈ g.rules) {pattern : Nat}
    (hp : r.patterns[pattern]? = some p) : (r.id, pattern) ∈ g.patternIds := by
  refine List.mem_flatMap.mpr ⟨r, hr, List.mem_map.mpr ⟨pattern, List.mem_range.mpr ?_, rfl⟩⟩
  exact (List.getElem?_eq_some_iff.mp hp).1

theorem length_unrendered_le (g : Grammar α) (rendering : List PatternId) :
    (g.unrendered rendering).length ≤ (g.rules.flatMap (·.patterns)).length := by
  have hle : (g.unrendered rendering).length ≤ g.patternIds.length := List.length_filter_le ..
  simpa [patternIds, List.length_flatMap] using hle

/-- With every pattern that joins those being rendered the others grow fewer. -/
theorem length_unrendered_cons_lt {id : PatternId}
    (hid : id ∈ g.patternIds) (hnew : id ∉ rendering) :
    (g.unrendered (id :: rendering)).length < (g.unrendered rendering).length := by
  have hsplit : g.unrendered (id :: rendering) = (g.unrendered rendering).filter (· ≠ id) := by
    simp only [unrendered, List.filter_filter, List.mem_cons, not_or, Bool.decide_and]
  rw [hsplit, List.length_filter_lt_length_iff_exists]
  exact ⟨id, List.mem_filter.mpr ⟨hid, by simpa using hnew⟩, by simp⟩

/-- Every pattern of the grammar can be shown. -/
def Showable (g : Grammar α) : Prop := ∀ r ∈ g.rules, ∀ p ∈ r.patterns, p.Shown

instance (g : Grammar α) : Decidable g.Showable :=
  inferInstanceAs (Decidable (∀ r ∈ g.rules, ∀ p ∈ r.patterns, p.Shown))

/--
**Rendering, level by level.** The elements of a pattern are rendered alike whatever bounds the
nesting, if there is room for all patterns that are not being rendered. If there is not, the bound
may be reached, and then nothing is said of another one.
-/
theorem renders_elementsSynopsis (hg : g.Closed) (hshown : g.Showable)
    (hok : ok (.grammar .namelessArgument))
    {n k : Nat} (hle : n ≤ k) (hroom : (g.unrendered rendering).length < n ∨ ok .exhausted ∧ k = n)
    (hp : p.Shown) (href : g.Resolves p) {skip : Int} (hskip : 0 ≤ skip) :
    Renders rendering docs ok (g.elementsSynopsis (g.synopsis n 0) p skip)
      (g.elementsSynopsis (g.synopsis k 0) p skip) := by
  induction n generalizing k rendering p skip with
  | zero =>
    rcases hroom with hroom | ⟨hexhausted, rfl⟩
    · exact absurd hroom (Nat.not_lt_zero _)
    · exact renders_elements hok
        (fun r hr pattern q hq m hm => Run.alongside_fail hexhausted ⟨rfl, hm⟩) hp href hskip
  | succ n ih =>
    obtain ⟨k, rfl⟩ := Nat.exists_eq_add_of_le' (Nat.le_of_add_left_le hle)
    refine renders_elements hok (fun r hr pattern q hq => renders_synopsis_succ fun hnew => ?_)
      hp href hskip
    have hmem := List.mem_of_getElem? hq
    refine ih (by omega) ?_ (hshown r hr q hmem) (hg r hr q hmem) (Int.le_refl 0)
    have hfewer := length_unrendered_cons_lt (mem_patternIds hr hq) hnew
    exact hroom.imp (by omega) fun ⟨hexhausted, heq⟩ => ⟨hexhausted, by omega⟩

/-- Rendering one pattern. It need not be one of the grammar, so it takes up a place of its own. -/
theorem renders_synopsis (hg : g.Closed) (hshown : g.Showable)
    (hok : ok (.grammar .namelessArgument)) {n k : Nat}
    (hle : n ≤ k) (hroom : g.patternCount ≤ n ∨ ok .exhausted ∧ k = n) (hp : p.Shown)
    (href : g.Resolves p) {skip : Int} (hskip : 0 ≤ skip) (id : PatternId) :
    Renders rendering docs ok (g.synopsis n skip id p) (g.synopsis k skip id p) := by
  rcases n with _ | n
  · rcases hroom with hroom | ⟨hexhausted, rfl⟩
    · exact absurd hroom (Nat.not_le_of_lt (Nat.succ_pos _))
    · exact fun m hm => Run.alongside_fail hexhausted ⟨rfl, hm⟩
  · obtain ⟨k, rfl⟩ := Nat.exists_eq_add_of_le' (Nat.le_of_add_left_le hle)
    refine renders_synopsis_succ fun _ => ?_
    refine renders_elementsSynopsis hg hshown hok (by omega) ?_ hp href hskip
    have hfew := g.length_unrendered_le (id :: rendering)
    refine hroom.imp (fun hroom => ?_) fun ⟨hexhausted, heq⟩ => ⟨hexhausted, by omega⟩
    rw [patternCount] at hroom
    omega

/--
**Rendering ends on every grammar.** In a closed grammar all of whose patterns can be shown, however
they refer to each other, rendering a pattern comes to an end: more room for nesting makes no
difference. It comes to a text, or it is refused since the documentation of an argument has no name.

Either way the patterns being rendered are in the end what they were. So they are at every level,
for every pattern rendered on the way, and even if the nesting were cut short there. The arguments
collected before are still there, in front, and all have different names.
-/
theorem patternSynopsis_ends (hg : g.Closed) (hshown : g.Showable) (hp : p.Shown)
    (href : g.Resolves p) (id : PatternId)
    {skip : Int} (hskip : 0 ≤ skip) {m : Manual} (hdocs : (m.docs.map ArgDoc.name).Nodup) :
    (∃ o, (g.patternSynopsis id p skip).run m = o ∧ Run.Ends (fun n => g.synopsis n skip id p) m o ∧
      ((∃ text, o.result = .ok text) ∨ o.result = .error (.grammar .namelessArgument)) ∧
      o.state.rendering = m.rendering ∧ m.docs <+: o.state.docs ∧
      (o.state.docs.map ArgDoc.name).Nodup) ∧
    ∀ (n : Nat) (inner : PatternId) (q : Pattern α) (start : Int) (m' : Manual), q.Shown →
      g.Resolves q → 0 ≤ start → (m'.docs.map ArgDoc.name).Nodup →
        ((g.synopsis n start inner q).run m').state.rendering = m'.rendering := by
  refine ⟨?_, fun n inner q start m' hq hqref hstart hdocs' => ?_⟩
  · have hrenders (k : Nat) (hle : g.patternCount ≤ k) : Renders m.rendering m.docs
        (.grammar .namelessArgument = ·) (g.patternSynopsis id p skip) (g.synopsis k skip id p) :=
      renders_synopsis hg hshown rfl hle (.inl (Nat.le_refl _)) hp href hskip id
    have hends (k : Nat) (hle : g.patternCount ≤ k) :=
      hrenders k hle m ⟨rfl, List.prefix_refl _, hdocs⟩
    obtain ⟨-, -, ⟨-, hm⟩, hfaults⟩ := hends _ (Nat.le_refl _)
    refine ⟨_, rfl, ⟨fun hexhausted => ?_, g.patternCount, fun k hle => (hends k hle).run_eq⟩, ?_,
      hm.rendering_eq, hm.keeps, hm.distinct⟩
    · exact Fault.noConfusion (hfaults _ hexhausted)
    · cases hresult : ((g.patternSynopsis id p skip).run m).result with
      | ok text => exact .inl ⟨text, rfl⟩
      | error fault => exact .inr (congrArg Except.error (hfaults fault hresult).symm)
  · have hrenders : Renders m'.rendering m'.docs (fun _ => True) (g.synopsis n start inner q)
        (g.synopsis n start inner q) :=
      renders_synopsis hg hshown trivial (Nat.le_refl n) (.inr ⟨trivial, rfl⟩) hq hqref hstart inner
    exact (hrenders m' ⟨rfl, List.prefix_refl _, hdocs'⟩).states.2.rendering_eq

/-- The row of elements of a list: an item, a comma, and a list again. -/
private def listRow : Pattern Unit :=
  .ofTokens [⟨.reference, "item"⟩, ⟨.literal, ","⟩, ⟨.reference, "list"⟩] none

/-- Lists of items, which are names or lists again. The name of an item is documented. -/
private def nestedLists : Grammar Unit where
  rules := [{ id := ⟨"list", 0⟩, patterns := [listRow] },
    { id := ⟨"item", 0⟩
      patterns := [
        { tokens := [⟨.category, "ID"⟩], action := none, args := [some { name := some "name" }],
          lastShown := 0 },
        .ofTokens [⟨.literal, "("⟩, ⟨.reference, "list"⟩, ⟨.literal, ")"⟩] none] }]
  distinct := by decide

/-- A list that stands inside itself in two places is rendered, and the name of an item
is collected. -/
theorem patternSynopsis_nestedLists :
    nestedLists.Closed ∧ nestedLists.Showable ∧ listRow.Shown ∧ nestedLists.Resolves listRow ∧
      ∃ o, (nestedLists.patternSynopsis (⟨"list", 0⟩, 0) listRow 0).run {} = o ∧
        Run.Ends (fun n => nestedLists.synopsis n 0 (⟨"list", 0⟩, 0) listRow) {} o ∧
        o.result.toOption = some "(<name> | ( [, ... ] )) , [, ... ]" ∧ o.state.rendering = [] ∧
        o.state.docs.map ArgDoc.name = [some "name"] := by
  have hclosed : nestedLists.Closed := by decide
  have hshowable : nestedLists.Showable := by decide
  have hshown : listRow.Shown := by decide
  have hresolves : nestedLists.Resolves listRow := by decide
  obtain ⟨⟨o, ho, hends, -, hrendering, -⟩, -⟩ := patternSynopsis_ends hclosed hshowable hshown
    hresolves (⟨"list", 0⟩, 0) (Int.le_refl 0) (m := {}) List.nodup_nil
  refine ⟨hclosed, hshowable, hshown, hresolves, o, ho, hends, ?_, hrendering, ?_⟩
  · rw [← ho]
    decide +kernel
  · rw [← ho]
    decide +kernel

end Grammar

end GrammarEngine
