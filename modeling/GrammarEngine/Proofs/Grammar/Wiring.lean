import GrammarEngine.Proofs.Grammar.Paths
import Mathlib.Data.List.Pairwise

/-!
# Wiring lists the short ways

Wiring walks along a pattern, dives into the rules referred to, and adds a transition to the state
for every terminal it meets; it does not dive into a reference it is diving through already. Here
the walk is taken apart: first the transitions met are listed (`waysAlong`, `waysInto`), then they
are added one after the other (`State.addAll`). The list holds exactly the ways that repeat no
reference, each of them once.

That no reference is repeated also bounds the nesting of the walk: the references in a chain are
different elements of the grammar, so there are never more of them than elements.

Main results:

* `along_eq`, `enterRule_eq` — wiring adds what is listed.
* `mem_waysInto`, `mem_waysAlong` — listed are the ways without repetition.
* `nodup_waysInto`, `nodup_waysAlong` — and none of them twice.
-/

namespace GrammarEngine

-- ---------------------------------------------------------------------------
-- Adding transitions
-- ---------------------------------------------------------------------------

namespace State

/-- Adds several transitions, unless two are on the same token. -/
def addAll (s : State) (ts : List Transition) : Except Fault State := ts.foldlM addTransition s

theorem addAll_append (s : State) (ts us : List Transition) :
    s.addAll (ts ++ us) = s.addAll ts >>= fun s' => s'.addAll us := by
  simp only [addAll, List.foldlM_append]

theorem find?_eq_none_iff {s : State} {d : Descriptor} :
    s.find? d = none ↔ ∀ e ∈ s.transitions, e.token ≠ d := by
  simp [find?]

/-- Transitions are added as long as their tokens are new; the first one whose token is
taken is refused. -/
theorem addAll_cases (s : State) (ts : List Transition) :
    (s.addAll ts = .ok { s with transitions := s.transitions ++ ts } ∧
      (s.transitions.Pairwise (fun e t => e.token ≠ t.token) →
        (s.transitions ++ ts).Pairwise fun e t => e.token ≠ t.token)) ∨
    ∃ before t after e,
      ts = before ++ t :: after ∧ e ∈ s.transitions ++ before ∧ e.token = t.token ∧
      s.addAll ts = .error (.ambiguous { s with transitions := s.transitions ++ before } e t) := by
  induction ts generalizing s with
  | nil =>
    refine .inl ⟨?_, fun h => ?_⟩
    · simp [addAll, pure, Except.pure]
    · rwa [List.append_nil]
  | cons t rest ih =>
    cases hfind : s.find? t.token with
    | some e =>
      obtain ⟨hmem, htoken⟩ := mem_of_find?_eq_some hfind
      refine .inr ⟨[], t, rest, e, rfl, by simpa using hmem, htoken, ?_⟩
      simp [addAll, addTransition, hfind, bind, Except.bind]
    | none =>
      have hstep : s.addAll (t :: rest) =
          { s with transitions := s.transitions ++ [t] }.addAll rest := by
        simp [addAll, addTransition, hfind, bind, Except.bind]
      have hnew := find?_eq_none_iff.mp hfind
      rw [hstep]
      rcases ih { s with transitions := s.transitions ++ [t] } with
        ⟨hok, hpair⟩ | ⟨before, u, after, e, rfl, hmem, htoken, herror⟩
      · refine .inl ⟨?_, fun h => ?_⟩
        · rw [hok]
          simp
        · rw [← List.append_cons] at hpair
          refine hpair (List.pairwise_append.mpr ⟨h, List.pairwise_singleton _ _, ?_⟩)
          intro e he t' ht'
          rw [List.mem_singleton.mp ht']
          exact hnew e he
      · refine .inr ⟨t :: before, u, after, e, rfl, ?_, htoken, ?_⟩
        · simpa using hmem
        · rw [herror]
          simp

end State

namespace Grammar

variable {α : Type}

-- ---------------------------------------------------------------------------
-- Chains
-- ---------------------------------------------------------------------------

/-- The keys of all elements of the patterns of a grammar. -/
def elementKeys (g : Grammar α) : List Key :=
  g.rules.flatMap fun r => r.patterns.zipIdx.flatMap fun (p, pattern) =>
    (List.range p.tokens.length).map fun index => ⟨r.id, some pattern, index⟩

theorem length_elementKeys (g : Grammar α) : g.elementKeys.length = g.positions := by
  simp only [elementKeys, positions, List.length_flatMap]
  refine congrArg List.sum (List.map_congr_left fun r _ => congrArg List.sum ?_)
  have hfst : (r.patterns.zipIdx.map fun x => x.1.tokens.length) =
      r.patterns.map (·.tokens.length) := by
    conv_rhs => rw [← List.zipIdx_map_fst 0 r.patterns, List.map_map]
    rfl
  rw [← hfst]
  refine List.map_congr_left fun x _ => ?_
  rw [List.length_map, List.length_range]

theorem mem_elementKeys {g : Grammar α} {r : Rule α} {pattern index : Nat} {p : Pattern α}
    (hr : r ∈ g.rules) (hp : r.patterns[pattern]? = some p) (hi : index < p.tokens.length) :
    ⟨r.id, some pattern, index⟩ ∈ g.elementKeys := by
  refine List.mem_flatMap.mpr ⟨r, hr, List.mem_flatMap.mpr ⟨(p, pattern), ?_, ?_⟩⟩
  · exact List.mk_mem_zipIdx_iff_getElem?.mpr hp
  · exact List.mem_map.mpr ⟨index, List.mem_range.mpr hi, rfl⟩

/-- The references that are being followed: elements of the grammar, none of them twice. -/
structure Chain (g : Grammar α) (chain : List Key) : Prop where
  nodup : chain.Nodup
  subset : chain ⊆ g.elementKeys

theorem chain_nil (g : Grammar α) : g.Chain [] := ⟨List.nodup_nil, List.nil_subset _⟩

theorem Chain.length_le {g : Grammar α} {chain : List Key} (h : g.Chain chain) :
    chain.length ≤ g.positions := by
  rw [← g.length_elementKeys]
  exact (h.nodup.subperm h.subset).length_le

theorem Chain.snoc {g : Grammar α} {chain : List Key} {k : Key} (h : g.Chain chain)
    (hk : k ∈ g.elementKeys) (hnew : k ∉ chain) : g.Chain (chain ++ [k]) := by
  refine ⟨List.nodup_append.mpr ⟨h.nodup, List.nodup_singleton k, ?_⟩, ?_⟩
  · rintro a ha b hb rfl
    rw [List.mem_singleton.mp hb] at ha
    exact hnew ha
  · intro a ha
    rcases List.mem_append.mp ha with ha | ha
    · exact h.subset ha
    · rw [List.mem_singleton.mp ha]
      exact hk

/-- With each reference that is followed, one step less of the nesting is needed. -/
theorem Chain.deeper {g : Grammar α} {chain : List Key} {n : Nat} {k : Key} (h : g.Chain chain)
    (hn : g.positions < n + 1 + chain.length) (hk : k ∈ g.elementKeys) (hnew : k ∉ chain) :
    g.Chain (chain ++ [k]) ∧ g.positions < n + (chain ++ [k]).length := by
  refine ⟨h.snoc hk hnew, ?_⟩
  rw [List.length_append, List.length_singleton]
  omega

/-- The element that stands first in the rest of a pattern, and what stands behind it. -/
theorem of_drop_eq_cons {tokens rest : List Descriptor} {index : Nat} {d : Descriptor}
    (h : tokens.drop index = d :: rest) :
    tokens[index]? = some d ∧ index < tokens.length ∧ tokens.drop (index + 1) = rest := by
  have hget : tokens[index]? = some d := by rw [← List.head?_drop, h, List.head?_cons]
  exact ⟨hget, (List.getElem?_eq_some_iff.mp hget).1, by rw [← List.tail_drop, h, List.tail_cons]⟩

-- ---------------------------------------------------------------------------
-- The list of ways
-- ---------------------------------------------------------------------------

/-- The transitions met along some elements of a pattern, with `into` for those met in a rule. -/
noncomputable def waysAlong (g : Grammar α) (loopBack : Bool)
    (into : Rule α → List Key → List Transition)
    (rule : RuleId) (pattern : Nat) : List Descriptor → Nat → List Key → List Transition
  | [], _, _ => []
  | d :: rest, index, chain =>
    let here : Key := ⟨rule, some pattern, index⟩
    if d.isTerminal then [⟨d.normalized, here, chain, loopBack⟩]
    else
      (match g.find? d.name with
        | some s => if here ∈ chain then [] else into s (chain ++ [here])
        | none => []) ++
      (if g.skips d then waysAlong g loopBack into rule pattern rest (index + 1) chain else [])

/-- The transitions met in a rule, from the start of each of its patterns. -/
noncomputable def waysInto (g : Grammar α) (loopBack : Bool) :
    Nat → Rule α → List Key → List Transition
  | 0, _, _ => []
  | n + 1, r, chain => r.patterns.zipIdx.flatMap fun (p, pattern) =>
    waysAlong g loopBack (waysInto g loopBack n) r.id pattern p.tokens 0 chain

section Walk

variable {g : Grammar α} {optional : Rule α → Bool} {loopBack : Bool}

/-- Walking along a pattern adds the listed transitions, and tells whether all that was left of the
pattern can be passed over. -/
theorem along_eq (hg : g.Closed) (hopt : ∀ s ∈ g.rules, optional s = g.vanishes s)
    {enter : Rule α → List Key → State → Except Fault State}
    {into : Rule α → List Key → List Transition} {n : Nat}
    (henter : ∀ s ∈ g.rules, ∀ chain state, g.Chain chain → g.positions < n + chain.length →
      enter s chain state = state.addAll (into s chain))
    {r : Rule α} {pattern : Nat} {p : Pattern α}
    (hr : r ∈ g.rules) (hp : r.patterns[pattern]? = some p) {chain : List Key}
    (hchain : g.Chain chain) (hn : g.positions < n + 1 + chain.length) (tokens : List Descriptor)
    (index : Nat) (htokens : p.tokens.drop index = tokens) (state : State) :
    g.along optional enter r.id pattern p.tokens loopBack tokens index chain state =
      (state.addAll (g.waysAlong loopBack into r.id pattern tokens index chain) >>= fun state' =>
        pure (state', tokens.all g.skips)) := by
  induction tokens generalizing index state with
  | nil => simp [along, waysAlong, State.addAll, pure, Except.pure, bind, Except.bind]
  | cons d rest ih =>
    obtain ⟨hget, hlt, hrest⟩ := of_drop_eq_cons htokens
    have hd : d ∈ p.tokens := List.mem_of_getElem? hget
    rw [along, waysAlong, List.all_cons]
    cases ht : d.isTerminal with
    | true =>
      rw [skips_of_isTerminal ht]
      simp [State.addAll]
    | false =>
      obtain ⟨s, hs⟩ := hg r hr p (List.mem_of_getElem? hp) d hd ht
      have hmem := mem_of_find?_eq_some hs
      rw [referenced_of_find?_eq_some p.tokens hs, skips_of_find? ht hs]
      -- what is met in the rule referred to
      have hdive : (if (⟨r.id, some pattern, index⟩ : Key) ∈ chain then pure state
          else enter s (chain ++ [⟨r.id, some pattern, index⟩]) state : Except Fault State) =
          state.addAll (if ⟨r.id, some pattern, index⟩ ∈ chain then []
            else into s (chain ++ [⟨r.id, some pattern, index⟩])) := by
        split
        · rfl
        · next hnew =>
          obtain ⟨hchain', hn'⟩ := hchain.deeper hn (mem_elementKeys hr hp hlt) hnew
          exact henter s hmem _ _ hchain' hn'
      -- what is met behind it, if that can be reached
      have hbehind : ∀ state' : State, (if optional s = true then
            g.along optional enter r.id pattern p.tokens loopBack rest (index + 1) chain state'
          else pure (state', false)) =
          (state'.addAll (if g.vanishes s = true then
            g.waysAlong loopBack into r.id pattern rest (index + 1) chain else
                []) >>= fun state'' =>
          pure (state'', g.vanishes s && rest.all g.skips)) := by
        intro state'
        rw [hopt s hmem]
        cases g.vanishes s with
        | true =>
          rw [if_pos rfl, if_pos rfl, ih (index + 1) hrest state', Bool.true_and]
        | false =>
          rw [if_neg Bool.false_ne_true, if_neg Bool.false_ne_true, Bool.false_and]
          rfl
      simp only [Bool.false_eq_true, if_false, hs]
      rw [State.addAll_append, ← hdive, bind_assoc]
      by_cases hin : (⟨r.id, some pattern, index⟩ : Key) ∈ chain
      · simp only [if_pos hin, pure_bind]
        exact hbehind state
      · simp only [if_neg hin]
        exact congrArg _ (funext hbehind)

theorem foldlM_addAll {ι : Type} (items : List ι) (step : State → ι → Except Fault State)
    (ways : ι → List Transition)
    (hstep : ∀ x ∈ items, ∀ state, step state x = state.addAll (ways x))
    (state : State) : items.foldlM step state = state.addAll (items.flatMap ways) := by
  induction items generalizing state with
  | nil => rfl
  | cons x rest ih =>
    rw [List.foldlM_cons, List.flatMap_cons, State.addAll_append, hstep x (List.mem_cons_self ..)]
    refine congrArg _ (funext fun state' => ?_)
    exact ih (fun y hy => hstep y (List.mem_cons_of_mem _ hy)) state'

/-- Following a rule adds the listed transitions; the bound on the nesting is never reached. -/
theorem enterRule_eq (hg : g.Closed) (hopt : ∀ s ∈ g.rules, optional s = g.vanishes s) (n : Nat) :
    ∀ r ∈ g.rules, ∀ chain state, g.Chain chain → g.positions < n + chain.length →
      g.enterRule optional loopBack n r chain state =
        state.addAll (g.waysInto loopBack n r chain) := by
  induction n with
  | zero =>
    intro r _ chain state hchain hn
    have := hchain.length_le
    omega
  | succ n ih =>
    intro r hr chain state hchain hn
    rw [enterRule, waysInto]
    refine foldlM_addAll _ _ _ (fun x hx state => ?_) state
    obtain ⟨p, pattern⟩ := x
    have hp := List.mk_mem_zipIdx_iff_getElem?.mp hx
    simp only [along_eq hg hopt ih hr hp hchain hn p.tokens 0 rfl state]
    simp

-- ---------------------------------------------------------------------------
-- What is listed
-- ---------------------------------------------------------------------------

/-- A transition by a way from an element, behind the references of a chain, with no
reference twice. -/
def Found (g : Grammar α) (loopBack : Bool) (r : Rule α) (pattern index : Nat) (chain : List Key)
    (t : Transition) : Prop :=
  ∃ rest target token, t = ⟨token, target, chain ++ rest, loopBack⟩ ∧
    g.Way r pattern index rest target token ∧ (chain ++ rest).Nodup

/-- From a terminal one transition is found. -/
theorem found_terminal_iff {r : Rule α} {pattern index : Nat} {p : Pattern α} {d : Descriptor}
    {chain : List Key} {t : Transition} (hp : r.patterns[pattern]? = some p)
    (hd : p.tokens[index]? = some d) (ht : d.isTerminal = true) :
    g.Found loopBack r pattern index chain t ↔
      t = ⟨d.normalized, ⟨r.id, some pattern, index⟩, chain, loopBack⟩ ∧ chain.Nodup := by
  constructor
  · rintro ⟨rest, target, token, rfl, hway, hnodup⟩
    obtain ⟨rfl, rfl, rfl⟩ := (way_terminal_iff hp hd ht).mp hway
    rw [List.append_nil] at hnodup ⊢
    exact ⟨rfl, hnodup⟩
  · rintro ⟨rfl, hnodup⟩
    refine ⟨[], _, _, ?_, .terminal hp hd ht, ?_⟩
    · rw [List.append_nil]
    · rwa [List.append_nil]

/-- From a reference that was not passed yet the transitions into the rule are found, and from any
reference that can match nothing those behind it. -/
theorem found_reference_iff {r s : Rule α} {pattern index : Nat} {p : Pattern α} {d : Descriptor}
    {chain : List Key} {t : Transition} (hp : r.patterns[pattern]? = some p)
    (hd : p.tokens[index]? = some d) (ht : d.isTerminal = false) (hs : g.find? d.name = some s) :
    g.Found loopBack r pattern index chain t ↔
      ((⟨r.id, some pattern, index⟩ : Key) ∉ chain ∧
        ∃ inner, g.Found loopBack s inner 0 (chain ++ [⟨r.id, some pattern, index⟩]) t) ∨
      (g.Vanishing s ∧ g.Found loopBack r pattern (index + 1) chain t) := by
  constructor
  · rintro ⟨rest, target, token, rfl, hway, hnodup⟩
    rcases (way_reference_iff hp hd ht hs).mp hway with ⟨inner, more, rfl, hinner⟩ | ⟨hv, hbehind⟩
    · have hnew : (⟨r.id, some pattern, index⟩ : Key) ∉ chain := fun hin =>
        (List.nodup_append.mp hnodup).2.2 _ hin _ (List.mem_cons_self ..) rfl
      have hchain := List.append_cons chain ⟨r.id, some pattern, index⟩ more
      rw [hchain] at hnodup
      exact .inl ⟨hnew, inner, more, target, token, by rw [hchain], hinner, hnodup⟩
    · exact .inr ⟨hv, rest, target, token, rfl, hbehind, hnodup⟩
  · rintro (⟨-, inner, more, target, token, rfl, hway, hnodup⟩ |
      ⟨hv, rest, target, token, rfl, hway, hnodup⟩)
    · rw [← List.append_cons] at hnodup ⊢
      exact ⟨_, target, token, rfl, .enter hp hd ht hs hway, hnodup⟩
    · exact ⟨rest, target, token, rfl, .skip hp hd ht hs hv hway, hnodup⟩

/-- The transitions listed along a pattern are those by a way without repetition. -/
theorem mem_waysAlong (hg : g.Closed) {into : Rule α → List Key → List Transition} {n : Nat}
    (hinto : ∀ s ∈ g.rules, ∀ chain t, g.Chain chain → g.positions < n + chain.length →
      (t ∈ into s chain ↔ ∃ inner, g.Found loopBack s inner 0 chain t))
    {r : Rule α} {pattern : Nat} {p : Pattern α}
    (hr : r ∈ g.rules) (hp : r.patterns[pattern]? = some p) {chain : List Key}
    (hchain : g.Chain chain) (hn : g.positions < n + 1 + chain.length) (tokens : List Descriptor)
    (index : Nat) (htokens : p.tokens.drop index = tokens) (t : Transition) :
    t ∈ g.waysAlong loopBack into r.id pattern tokens index chain ↔
      g.Found loopBack r pattern index chain t := by
  induction tokens generalizing index with
  | nil =>
    rw [waysAlong]
    refine iff_of_false List.not_mem_nil ?_
    rintro ⟨rest, target, token, -, hway, -⟩
    have hlt := hway.index_lt hp
    rw [List.drop_eq_nil_iff] at htokens
    omega
  | cons d rest ih =>
    obtain ⟨hget, hlt, hrest⟩ := of_drop_eq_cons htokens
    rw [waysAlong]
    cases ht : d.isTerminal with
    | true =>
      simp only [if_true, List.mem_singleton]
      rw [found_terminal_iff hp hget ht]
      exact (and_iff_left hchain.nodup).symm
    | false =>
      obtain ⟨s, hs⟩ := hg r hr p (List.mem_of_getElem? hp) d (List.mem_of_getElem? hget) ht
      simp only [Bool.false_eq_true, if_false, hs, List.mem_append]
      rw [List.mem_ite_nil_left, List.mem_ite_nil_right, ih (index + 1) hrest, skips_of_find? ht hs,
        vanishes_eq_true, found_reference_iff hp hget ht hs]
      refine or_congr_left (and_congr_right fun hnew => ?_)
      obtain ⟨hchain', hn'⟩ := hchain.deeper hn (mem_elementKeys hr hp hlt) hnew
      exact hinto s (mem_of_find?_eq_some hs) _ t hchain' hn'

/-- The transitions listed in a rule are those by a way without repetition. -/
theorem mem_waysInto (hg : g.Closed) (n : Nat) :
    ∀ r ∈ g.rules, ∀ chain t, g.Chain chain → g.positions < n + chain.length →
      (t ∈ g.waysInto loopBack n r chain ↔ ∃ pattern, g.Found loopBack r pattern 0 chain t) := by
  induction n with
  | zero =>
    intro r _ chain t hchain hn
    have := hchain.length_le
    omega
  | succ n ih =>
    intro r hr chain t hchain hn
    rw [waysInto, List.mem_flatMap]
    constructor
    · rintro ⟨⟨p, pattern⟩, hx, ht⟩
      have hp := List.mk_mem_zipIdx_iff_getElem?.mp hx
      exact ⟨pattern, (mem_waysAlong hg ih hr hp hchain hn p.tokens 0 rfl t).mp ht⟩
    · rintro ⟨pattern, hfound⟩
      obtain ⟨p, hp⟩ : ∃ p, r.patterns[pattern]? = some p := by
        obtain ⟨_, _, _, -, hway, -⟩ := hfound
        cases hway with
        | terminal hp | enter hp | skip hp => exact ⟨_, hp⟩
      exact ⟨(p, pattern), List.mk_mem_zipIdx_iff_getElem?.mpr hp,
        (mem_waysAlong hg ih hr hp hchain hn p.tokens 0 rfl t).mpr hfound⟩

/-- A way is found from one element only: the first place that it passes tells. -/
theorem Found.same_start {r : Rule α} {pattern pattern' index index' : Nat} {chain : List Key}
    {t : Transition} (h : g.Found loopBack r pattern index chain t)
    (h' : g.Found loopBack r pattern' index' chain t) : pattern = pattern' := by
  obtain ⟨rest, target, token, rfl, hway, -⟩ := h
  obtain ⟨rest', target', token', heq, hway', -⟩ := h'
  rw [Transition.mk.injEq, List.append_cancel_left_eq] at heq
  obtain ⟨-, rfl, rfl, -⟩ := heq
  obtain ⟨first, more, -, hhead⟩ := hway.route_head
  obtain ⟨first', more', -, hhead'⟩ := hway'.route_head
  rw [hhead, List.cons.injEq, Key.mk.injEq, Option.some.injEq] at hhead'
  exact hhead'.1.2.1

/-- Nothing is listed twice along a pattern. -/
theorem nodup_waysAlong (hg : g.Closed) {into : Rule α → List Key → List Transition} {n : Nat}
    (hinto : ∀ s ∈ g.rules, ∀ chain t, g.Chain chain → g.positions < n + chain.length →
      (t ∈ into s chain ↔ ∃ inner, g.Found loopBack s inner 0 chain t))
    (hnodup : ∀ s ∈ g.rules, ∀ chain, g.Chain chain → g.positions < n + chain.length →
      (into s chain).Nodup)
    {r : Rule α} {pattern : Nat} {p : Pattern α}
    (hr : r ∈ g.rules) (hp : r.patterns[pattern]? = some p)
    {chain : List Key} (hchain : g.Chain chain) (hn : g.positions < n + 1 + chain.length)
    (tokens : List Descriptor) (index : Nat) (htokens : p.tokens.drop index = tokens) :
    (g.waysAlong loopBack into r.id pattern tokens index chain).Nodup := by
  induction tokens generalizing index with
  | nil => exact List.nodup_nil
  | cons d rest ih =>
    obtain ⟨hget, hlt, hrest⟩ := of_drop_eq_cons htokens
    rw [waysAlong]
    cases ht : d.isTerminal with
    | true => exact List.nodup_singleton _
    | false =>
      obtain ⟨s, hs⟩ := hg r hr p (List.mem_of_getElem? hp) d (List.mem_of_getElem? hget) ht
      have hmem := mem_of_find?_eq_some hs
      simp only [Bool.false_eq_true, if_false, hs]
      have hkey := mem_elementKeys hr hp hlt
      refine List.nodup_append.mpr ⟨?_, ?_, ?_⟩
      · split
        · exact List.nodup_nil
        · next hnew =>
          obtain ⟨hchain', hn'⟩ := hchain.deeper hn hkey hnew
          exact hnodup s hmem _ hchain' hn'
      · split
        · exact ih (index + 1) hrest
        · exact List.nodup_nil
      · -- one way passes this element first, the other one an element behind it
        rintro t hdive t' hbehind rfl
        obtain ⟨hnew, hdive⟩ := List.mem_ite_nil_left.mp hdive
        obtain ⟨-, hbehind⟩ := List.mem_ite_nil_right.mp hbehind
        obtain ⟨hchain', hn'⟩ := hchain.deeper hn hkey hnew
        obtain ⟨inner, more, target, token, rfl, -, -⟩ := (hinto s hmem _ t hchain' hn').mp hdive
        obtain ⟨more', target', token', heq, hway, -⟩ :=
          (mem_waysAlong hg hinto hr hp hchain hn rest (index + 1) hrest _).mp hbehind
        rw [Transition.mk.injEq, List.append_assoc, List.append_cancel_left_eq] at heq
        obtain ⟨first, others, hle, hhead⟩ := hway.route_head
        rw [← heq.2.2.1, List.singleton_append, List.cons_append, List.cons.injEq, Key.mk.injEq]
          at hhead
        have := hhead.1.2.2
        omega

/-- Nothing is listed twice in a rule. -/
theorem nodup_waysInto (hg : g.Closed) (n : Nat) :
    ∀ r ∈ g.rules, ∀ chain, g.Chain chain → g.positions < n + chain.length →
      (g.waysInto loopBack n r chain).Nodup := by
  induction n with
  | zero =>
    intro r _ chain hchain hn
    have := hchain.length_le
    omega
  | succ n ih =>
    intro r hr chain hchain hn
    rw [waysInto, List.nodup_flatMap]
    constructor
    · rintro ⟨p, pattern⟩ hx
      have hp := List.mk_mem_zipIdx_iff_getElem?.mp hx
      exact nodup_waysAlong hg (mem_waysInto hg n) ih hr hp hchain hn p.tokens 0 rfl
    · have hindices : (r.patterns.zipIdx.map Prod.snd).Nodup := by
        rw [List.zipIdx_map_snd]
        exact List.nodup_range'
      refine (List.pairwise_map.mp hindices).imp_of_mem fun {x y} hx hy hxy t htx hty => ?_
      obtain ⟨p, pattern⟩ := x
      obtain ⟨p', pattern'⟩ := y
      have hp := List.mk_mem_zipIdx_iff_getElem?.mp hx
      have hp' := List.mk_mem_zipIdx_iff_getElem?.mp hy
      refine hxy (Found.same_start
        ((mem_waysAlong hg (mem_waysInto hg n) hr hp hchain hn p.tokens 0 rfl t).mp htx)
        ((mem_waysAlong hg (mem_waysInto hg n) hr hp' hchain hn p'.tokens 0 rfl t).mp hty))

end Walk

end Grammar

end GrammarEngine
