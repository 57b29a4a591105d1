import GrammarEngine.Proofs.Parser.Follow
import GrammarEngine.Proofs.Parser.LeftCorner
import GrammarEngine.Proofs.Parser.Stack

/-!
# What is left of a derivation

A derivation is given, and the parser has read a part of its tokens. Its stack holds what was
derived so far; this module says what is left. Every frame but the innermost one waits at a
reference for an instance of its rule: the value of that instance is known, since it is the one of
the derivation, and so are the tokens of all that comes behind it (`Awaits`). The innermost frame
has its elements filled up to the one where it stands, and the rest of its pattern is filled by
tokens still to come (`Stands`).

Where a stack that is sound stands for the tokens that were read, with some values, these invariants
look the other way, and fix the values. Nothing runs here.

Main results:

* `pushes_of_onset`, `enters_of_onset` — the next token of the derivation is on a way of the
  grammar, and the frames that are pushed along it stand for what is left then.
* `Awaits.insert` — when an instance is complete its rule starts over, or the element is filled, or
  the whole derivation is done.
* `Stands.follow` — the next token of the derivation may follow the rule that the innermost
  frame refers to.
-/

namespace GrammarEngine

namespace Grammar

variable {σ : Type} {g : Grammar (Action σ)} {kinds : List String}

-- ---------------------------------------------------------------------------
-- Slots with given values
-- ---------------------------------------------------------------------------

/-- The slots of a row of elements hold what will be the given values. -/
inductive Filled (g : Grammar (Action σ)) : List Descriptor → List Value → List Value → Prop
  | nil : Filled g [] [] []
  | cons {d : Descriptor} {row : List Descriptor} {raw v : Value} {raws values : List Value}
      (h : Parser.filled g d raw = .ok v) (hrest : Filled g row raws values) :
      Filled g (d :: row) (raw :: raws) (v :: values)

theorem Filled.length {row : List Descriptor} {raws values : List Value}
    (h : Filled g row raws values) : raws.length = row.length := by
  induction h with
  | nil => rfl
  | cons _ _ ih => rw [List.length_cons, List.length_cons, ih]

theorem Filled.completed {row : List Descriptor} {raws values : List Value}
    (h : Filled g row raws values) : Parser.completed g row raws = .ok values := by
  induction h with
  | nil => rfl
  | cons hraw _ ih =>
    unfold Parser.completed
    rw [hraw, ih]
    rfl

theorem Filled.append {row row' : List Descriptor} {raws raws' values values' : List Value}
    (h : Filled g row raws values) (h' : Filled g row' raws' values') :
    Filled g (row ++ row') (raws ++ raws') (values ++ values') := by
  induction h with
  | nil => exact h'
  | cons hraw _ ih => exact .cons hraw ih

/-- An element that is left empty can be passed over, and its empty slot becomes its value. -/
theorem Slot.of_empty {d : Descriptor} {v : Value} (h : Slot g kinds d [] v) :
    g.Skippable d ∧ Parser.filled g d .nothing = .ok v := by
  generalize hleaves : ([] : List Token) = leaves at h
  cases h with
  | terminal => cases hleaves
  | one _ _ _ h =>
    obtain ⟨_, _, heq, -⟩ := h.begins
    rw [← hleaves] at heq
    cases heq
  | many _ _ _ h =>
    obtain ⟨_, _, _, _, heq, -⟩ := h.begins
    rw [← hleaves] at heq
    cases heq
  | missing ht hs hv =>
    exact ⟨⟨ht, _, hs, hv⟩, filled_nothing ht hs⟩

theorem Slots.of_empty {row : List Descriptor} {values : List Value}
    (h : Slots g kinds row [] values) :
    (∀ d ∈ row, g.Skippable d) ∧ Filled g row (List.replicate row.length .nothing) values := by
  induction row generalizing values with
  | nil =>
    cases h
    exact ⟨List.forall_mem_nil _, .nil⟩
  | cons d row ih =>
    generalize hleaves : ([] : List Token) = leaves at h
    cases h with
    | cons hd hrest =>
      obtain ⟨rfl, rfl⟩ := List.append_eq_nil_iff.mp hleaves.symm
      obtain ⟨hskip, hfilled⟩ := hd.of_empty
      obtain ⟨hskips, hrow⟩ := ih hrest
      exact ⟨List.forall_mem_cons.mpr ⟨hskip, hskips⟩, .cons hfilled hrow⟩

/-- The slots in front of an element hold what will be the given values, once the missing
ones are made. -/
structure Primed (g : Grammar (Action σ)) (before : List Descriptor)
    (raws values : List Value) : Prop where
  length_le : raws.length ≤ before.length
  filled : Filled g before (Parser.padded .nothing before.length raws) values

theorem Filled.primed {row : List Descriptor} {raws values : List Value}
    (h : Filled g row raws values) : Primed g row raws values := by
  have hlength := h.length
  refine ⟨Nat.le_of_eq hlength, ?_⟩
  rw [Parser.padded, hlength, Nat.sub_self, List.replicate_zero, List.append_nil]
  exact h

/-- Elements that are left empty are passed over. -/
theorem Primed.pass {before passed : List Descriptor} {raws values values' : List Value}
    (h : Primed g before raws values) (hpass : Slots g kinds passed [] values') :
    Primed g (before ++ passed) raws (values ++ values') := by
  have hle := h.length_le
  refine ⟨by rw [List.length_append]; omega, ?_⟩
  have hcount : (before ++ passed).length - raws.length =
      before.length - raws.length + passed.length := by
    rw [List.length_append]
    omega
  rw [Parser.padded, hcount, List.replicate_add, ← List.append_assoc]
  exact h.filled.append hpass.of_empty.2

/-- The elements between the one where a frame stood and a later one are passed over. -/
theorem Primed.reach {row : List Descriptor} {index n : Nat} {raws front before : List Value}
    (h : Primed g (row.take index) raws front)
    (hbefore : Slots g kinds ((row.drop index).take n) [] before) :
    Primed g (row.take (index + n)) raws (front ++ before) := by
  rw [List.take_add]
  exact h.pass hbefore

/-- What a frame has collected while it waits for an instance of `s`: values of the elements
`before`, and of the instances `items` that came already. -/
inductive Holds (g : Grammar (Action σ)) (s : Rule (Action σ)) (before : List Descriptor)
    (values : List Value) : List Value → List Value → Prop
  | fresh {raws : List Value} (h : Primed g before raws values) : Holds g s before values [] raws
  | begun {items raws : List Value} (hrepeat : s.repeatable = true)
      (h : Filled g before raws values) : Holds g s before values items (raws ++ [.series items])

/-- An instance more goes into the slot it was waited for. -/
theorem Holds.insert {s : Rule (Action σ)} {before : List Descriptor} {values items : List Value}
    {f : Frame σ}
    (h : Holds g s before values items f.values) (v : Value) (position : Option Position) :
    ∃ raws, Filled g before raws values ∧ (f.insert before.length v position s.repeatable).values =
      raws ++ [if s.repeatable then .series (Series.push items v) else v] := by
  generalize hraws : f.values = fraws at h
  cases h with
  | fresh hprimed =>
    refine ⟨_, hprimed.filled, ?_⟩
    rw [← hraws]
    exact insert_values_of_length_le (hraws ▸ hprimed.length_le) v position s.repeatable
  | begun hrepeat hfilled =>
    refine ⟨_, hfilled, ?_⟩
    rw [hrepeat, ← hfilled.length]
    exact insert_values_of_series hraws v position

/-- After an instance the rule starts over, or the slot is complete and becomes the value that the
derivation has for it. -/
theorem Collects.cases {s : Rule (Action σ)} {items : List Value} {v w : Value}
    {leaves : List Token} (h : Collects g kinds s items v leaves w) :
    (s.repeatable = true ∧ ∃ token front rear v', leaves = token :: (front ++ rear) ∧
      Begins g kinds s token front v' ∧ Collects g kinds s (Series.push items v) v' rear w) ∨
    (leaves = [] ∧ w = (if s.repeatable then .series (Series.push items v) else v) ∧
      ∀ d, g.find? d.name = some s → Parser.filled g d w = .ok w) := by
  cases h with
  | single hrepeat =>
    exact .inr ⟨rfl, by rw [hrepeat]; rfl, fun d hs => filled_single hs hrepeat _⟩
  | several hrepeat h =>
    cases h with
    | done => exact .inr ⟨rfl, by rw [hrepeat]; rfl, fun _ _ => rfl⟩
    | more hfirst hrest =>
      obtain ⟨token, front, rfl, hbegins⟩ := hfirst.begins
      exact .inl ⟨hrepeat, token, front, _, _, rfl, hbegins, .several hrepeat hrest⟩

end Grammar

namespace Parser

open Grammar

variable {σ : Type} {g : Grammar (Action σ)} {kinds : List String} {table : Table}
  {start : Rule (Action σ)}

-- ---------------------------------------------------------------------------
-- The stack and what is left
-- ---------------------------------------------------------------------------

/-- `Awaits g kinds table start frames s v leaves w`: all frames wait, the innermost one for an
instance of `s` with the value `v`. When it has come, `leaves` is left to be read, and the value of
the start rule will be `w`. -/
inductive Awaits (g : Grammar (Action σ)) (kinds : List String) (table : Table)
    (start : Rule (Action σ)) : List (Frame σ) → Rule (Action σ) → Value → List Token → Value → Prop
  | root {f : Frame σ} {items : List Value} {v w : Value} {leaves : List Token}
      (hsite : Sits table f.site)
      (hkey : f.key = ⟨start.id, none, 0⟩) (hholds : Holds g start [] [] items f.values)
      (hrest : Collects g kinds start items v leaves w) :
      Awaits g kinds table start [f] start v leaves w
  | inner {f : Frame σ} {below : List (Frame σ)} {r s : Rule (Action σ)} {pattern index : Nat}
      {p : Pattern (Action σ)} {d : Descriptor} {before after items : List Value} {v v' u w : Value}
      {more leaves rest : List Token} (hseat : Seat g table f r pattern index p)
      (hd : p.tokens[index]? = some d) (ht : d.isTerminal = false) (hs : g.find? d.name = some s)
      (hholds : Holds g s (p.tokens.take index) before items f.values)
      (hmore : Collects g kinds s items v more v')
      (hafter : Slots g kinds (p.tokens.drop (index + 1)) leaves after)
      (hv : Evaluates p.action (before ++ v' :: after) u)
      (hbelow : Awaits g kinds table start below r u rest w) :
      Awaits g kinds table start (f :: below) s v (more ++ (leaves ++ rest)) w

/-- `Stands g kinds table start frames leaves w`: the innermost frame has its elements filled up to
the one where it stands, and the others wait. `leaves` is left to be read, and the value of the
start rule will be `w`. -/
inductive Stands (g : Grammar (Action σ)) (kinds : List String) (table : Table)
    (start : Rule (Action σ)) : List (Frame σ) → List Token → Value → Prop
  | intro {f : Frame σ} {below : List (Frame σ)} {r : Rule (Action σ)} {pattern index : Nat}
      {p : Pattern (Action σ)} {before after : List Value} {u w : Value} {leaves rest : List Token}
      (hseat : Seat g table f r pattern index p)
      (hfilled : Filled g (p.tokens.take (index + 1)) f.values before)
      (hafter : Slots g kinds (p.tokens.drop (index + 1)) leaves after)
      (hv : Evaluates p.action (before ++ after) u)
      (hbelow : Awaits g kinds table start below r u rest w) :
      Stands g kinds table start (f :: below) (leaves ++ rest) w

-- ---------------------------------------------------------------------------
-- The next token
-- ---------------------------------------------------------------------------

/-- The frame that is pushed for an element of a pattern. -/
theorem exists_pushed (htable : TableOf g table) {p : Parser σ} (hp : p.grammar = g) {site : Site}
    (hsite : site.table = table) (token : Token) {r : Rule (Action σ)} (hr : r ∈ g.rules)
    {pattern : Nat} {q : Pattern (Action σ)} (hq : r.patterns[pattern]? = some q) (index : Nat)
    (hindex : index < q.tokens.length) :
    ∃ next, site.follow? ⟨r.id, some pattern, index⟩ = some next ∧
      p.patternOf? next.state.key = some q ∧
      Seat g table { site := next, action := q.action, first := token.position }
        r pattern index q := by
  obtain ⟨state, hstate⟩ := htable.exists_find?_iff.mpr (.inside hr hq hindex)
  have hnext : site.follow? ⟨r.id, some pattern, index⟩ = some ⟨table, state⟩ := by
    rw [Site.follow?, hsite, hstate]
    rfl
  have hpattern : p.patternOf? state.key = some q := by
    rw [Table.key_of_find?_eq_some hstate]
    exact patternOf?_of_mem hp hr hq
  exact ⟨_, hnext, hpattern, seat_of_pushed token hp hsite hr hq hindex hnext hpattern⟩

section Element

variable {f : Frame σ} {below : List (Frame σ)} {r : Rule (Action σ)} {pattern index n : Nat}
  {q : Pattern (Action σ)} {d : Descriptor} {front before after : List Value}
  {leaves rest : List Token} {u w : Value}

/-- A frame that comes to a terminal takes the token. -/
theorem Stands.of_terminal (hseat : Seat g table f r pattern (index + n) q)
    (hprimed : Primed g (q.tokens.take index) f.values front)
    (hbefore : Slots g kinds ((q.tokens.drop index).take n) [] before)
    (hd : (q.tokens.drop index)[n]? = some d) (ht : d.isTerminal = true) (token : Token)
    (hafter : Slots g kinds ((q.tokens.drop index).drop (n + 1)) leaves after)
    (hv : Evaluates q.action (front ++ (before ++ token.value :: after)) u)
    (hbelow : Awaits g kinds table start below r u rest w) :
    Stands g kinds table start (f.insert (index + n) token.value token.position false :: below)
      (leaves ++ rest) w := by
  have hreach := hprimed.reach hbefore
  rw [List.getElem?_drop] at hd
  have hlength := hreach.length_le
  rw [length_take_of_getElem? hd] at hlength
  have hone : Filled g [d] [token.value] [token.value] := .cons (filled_terminal ht _) .nil
  have hfilled := hreach.filled.append hone
  rw [length_take_of_getElem? hd, take_append_of_getElem? hd] at hfilled
  have hvalues : (f.insert (index + n) token.value token.position false).values =
      padded .nothing (index + n) f.values ++ [token.value] :=
    insert_values_of_length_le hlength token.value token.position false
  rw [← hvalues] at hfilled
  rw [List.drop_drop] at hafter
  refine .intro (hseat.of_eq rfl rfl) hfilled hafter ?_ hbelow
  rw [List.append_assoc, List.append_assoc]
  exact hv

/-- A frame that comes to a reference waits there. -/
theorem Awaits.of_reference {s : Rule (Action σ)} {v v' : Value} {more : List Token}
    (hseat : Seat g table f r pattern (index + n) q)
    (hprimed : Primed g (q.tokens.take index) f.values front)
    (hbefore : Slots g kinds ((q.tokens.drop index).take n) [] before)
    (hd : (q.tokens.drop index)[n]? = some d) (ht : d.isTerminal = false)
    (hs : g.find? d.name = some s) (hmore : Collects g kinds s [] v more v')
    (hafter : Slots g kinds ((q.tokens.drop index).drop (n + 1)) leaves after)
    (hv : Evaluates q.action (front ++ (before ++ v' :: after)) u)
    (hbelow : Awaits g kinds table start below r u rest w) :
    Awaits g kinds table start (f :: below) s v (more ++ (leaves ++ rest)) w := by
  rw [List.getElem?_drop] at hd
  rw [List.drop_drop] at hafter
  refine .inner hseat hd ht hs (.fresh (hprimed.reach hbefore)) hmore hafter ?_ hbelow
  rw [List.append_assoc]
  exact hv

end Element

section Next

variable (htable : TableOf g table) {p : Parser σ} (hp : p.grammar = g) {site : Site}
  (hsite : site.table = table) (hplain : g.Plain) {token : Token}
  (hspelled : g.Unspelled kinds token) (hend : token.isEnd = false)

include hplain hspelled hend in
/-- The way to the first element of a row that is not left empty, if that is the token. -/
theorem way_of_terminal {r : Rule (Action σ)} (hr : r ∈ g.rules)
    {pattern n : Nat} {q : Pattern (Action σ)} (hq : r.patterns[pattern]? = some q) (index : Nat)
    {d : Descriptor} {before : List Value} (hd : (q.tokens.drop index)[n]? = some d)
    (ht : d.isTerminal = true) (hmatch : d.Matches kinds token)
    (hbefore : Slots g kinds ((q.tokens.drop index).take n) [] before) :
    g.Way r pattern index [] ⟨r.id, some pattern, index + n⟩ token.terminal := by
  rw [List.getElem?_drop] at hd
  have hterminal : d = token.terminal := terminal_of_matches hplain hspelled hend
    ⟨r, hr, q, List.mem_of_getElem? hq, List.mem_of_getElem? hd⟩ hmatch
  rw [← normalized_terminal, ← hterminal]
  exact .over hq hbefore.of_empty.1 (.terminal hq hd ht)

include htable hp hsite hplain hspelled hend

/-- **Going down.** The onset of a pattern is on a way into it, and frames are pushed along that way
until one takes the token. -/
theorem pushes_of_onset {s : Rule (Action σ)}
    (hs : s ∈ g.rules) {pattern n : Nat} {q : Pattern (Action σ)}
    (hq : s.patterns[pattern]? = some q) {leaves : List Token} {values : List Value}
    (h : Onset g kinds token q.tokens n leaves values) :
    ∃ chain target, g.Way s pattern 0 chain target token.terminal ∧ ∀ frames u rest w,
      Evaluates q.action values u → Awaits g kinds table start frames s u rest w →
      ∃ top frames', Pushes p site token (chain ++ [target]) frames (top :: frames') ∧
        Stands g kinds table start (top.insert target.index token.value token.position false ::
          frames') (leaves ++ rest) w := by
  generalize hrow : q.tokens = row at h
  induction h generalizing s pattern q with
  | @terminal _ n d leaves before after hd ht hmatch hbefore hafter =>
    subst hrow
    have hindex := (List.getElem?_eq_some_iff.mp hd).1
    have hway := way_of_terminal hplain hspelled hend hs hq 0 hd ht hmatch hbefore
    refine ⟨[], _, hway, fun frames u rest w hv hbelow => ?_⟩
    obtain ⟨next, hnext, hpattern, hseat⟩ :=
      exists_pushed htable hp hsite token hs hq (0 + n) (by omega)
    refine ⟨_, frames, .cons hnext hpattern (.nil _), ?_⟩
    have hprimed : Primed g (q.tokens.take 0) [] [] := Filled.nil.primed
    exact .of_terminal hseat hprimed hbefore hd ht token hafter hv hbelow
  | @enter _ n m inner d s' q' first more leaves _ before after v w hd ht hs' hq' hfirst hv' hmore
      hbefore hafter ih =>
    subst hrow
    have hindex := (List.getElem?_eq_some_iff.mp hd).1
    obtain ⟨chain, target, hway', hdown⟩ := ih (mem_of_find?_eq_some hs') hq' rfl
    have hway : g.Way s pattern 0 (⟨s.id, some pattern, 0 + n⟩ :: chain) target token.terminal := by
      refine .over hq hbefore.of_empty.1 (.enter hq ?_ ht hs' hway')
      rw [Nat.zero_add]
      exact hd
    refine ⟨_, target, hway, fun frames u rest w hv hbelow => ?_⟩
    obtain ⟨next, hnext, hpattern, hseat⟩ :=
      exists_pushed htable hp hsite token hs hq (0 + n) (by omega)
    have hprimed : Primed g (q.tokens.take 0) [] [] := Filled.nil.primed
    have hawaits := Awaits.of_reference hseat hprimed hbefore hd ht hs' hmore hafter hv hbelow
    obtain ⟨top, frames', hpushes, hstands⟩ := hdown _ _ _ _ hv' hawaits
    refine ⟨top, frames', .cons hnext hpattern hpushes, ?_⟩
    rw [List.append_assoc, List.append_assoc]
    exact hstands

/-- From a stack that waits for an instance frames are pushed to where it begins. -/
theorem Awaits.pushes {s : Rule (Action σ)}
    (hs : s ∈ g.rules) {frames : List (Frame σ)} {front rest : List Token} {v w : Value}
    (h : Awaits g kinds table start frames s v rest w) (hbegins : Begins g kinds s token front v) :
    ∃ pattern chain target top frames', g.Way s pattern 0 chain target token.terminal ∧
      Pushes p site token (chain ++ [target]) frames (top :: frames') ∧
      Stands g kinds table start (top.insert target.index token.value token.position false ::
        frames') (front ++ rest) w := by
  obtain ⟨pattern, q, n, values, hq, honset, hv⟩ := hbegins
  obtain ⟨chain, target, hway, hdown⟩ :=
    pushes_of_onset htable hp hsite hplain hspelled hend hs hq honset
  obtain ⟨top, frames', hpushes, hstands⟩ := hdown frames v rest w hv h
  exact ⟨pattern, chain, target, top, frames', hway, hpushes, hstands⟩

/-- **Going on.** The next token of a pattern that is under way is on a way from its state: the
innermost frame moves on, and takes the token or waits for the frames that are pushed. -/
theorem enters_of_onset {f : Frame σ} {below : List (Frame σ)} {r : Rule (Action σ)}
    {pattern index n : Nat} {q : Pattern (Action σ)} {before values : List Value}
    {leaves rest : List Token} {u w : Value} (hseat : Seat g table f r pattern index q)
    (hfilled : Filled g (q.tokens.take (index + 1)) f.values before)
    (h : Onset g kinds token (q.tokens.drop (index + 1)) n leaves values)
    (hv : Evaluates q.action (before ++ values) u)
    (hbelow : Awaits g kinds table start below r u rest w) :
    ∃ chain target top frames, g.Way r pattern (index + 1) chain target token.terminal ∧
      Enters p site token true (chain ++ [target]) (f :: below) (top :: frames) ∧
      Stands g kinds table start (top.insert target.index token.value token.position false ::
        frames) (leaves ++ rest) w := by
  have hr := hseat.mem_rules
  have hq := hseat.pattern_eq
  -- the frame after it has moved
  have hmoved : index + 1 + n < q.tokens.length →
      ∃ next, site.follow? ⟨r.id, some pattern, index + 1 + n⟩ = some next ∧
      Seat g table { f with site := next } r pattern (index + 1 + n) q := by
    intro hlt
    obtain ⟨next, hnext, -⟩ := exists_pushed htable hp hsite token hr hq _ hlt
    exact ⟨next, hnext, hseat.moved hsite hlt hnext⟩
  generalize hrow : q.tokens.drop (index + 1) = row at h
  cases h with
  | terminal hd ht hmatch hbefore hafter =>
    subst hrow
    have hlt := (List.getElem?_eq_some_iff.mp (List.getElem?_drop ▸ hd)).1
    obtain ⟨next, hnext, hseat'⟩ := hmoved hlt
    have hway := way_of_terminal hplain hspelled hend hr hq _ hd ht hmatch hbefore
    refine ⟨[], _, _, below, hway, .moves hnext (.nil _), ?_⟩
    exact .of_terminal hseat' hfilled.primed hbefore hd ht token hafter hv hbelow
  | @enter _ _ m inner d s' q' first more leaves _ _ _ v _ hd ht hs' hq' hfirst hv' hmore
      hbefore hafter =>
    subst hrow
    have hd' := List.getElem?_drop ▸ hd
    obtain ⟨next, hnext, hseat'⟩ := hmoved (List.getElem?_eq_some_iff.mp hd').1
    have hawaits :=
      Awaits.of_reference hseat' hfilled.primed hbefore hd ht hs' hmore hafter hv hbelow
    obtain ⟨chain, target, hway', hdown⟩ :=
      pushes_of_onset htable hp hsite hplain hspelled hend (mem_of_find?_eq_some hs') hq' hfirst
    obtain ⟨top, frames, hpushes, hstands⟩ := hdown _ _ _ _ hv' hawaits
    have hway : g.Way r pattern (index + 1) (⟨r.id, some pattern, index + 1 + n⟩ :: chain) target
        token.terminal :=
      .over hq hbefore.of_empty.1 (.enter hq hd' ht hs' hway')
    refine ⟨_, target, top, frames, hway, .moves hnext hpushes, ?_⟩
    rw [List.append_assoc, List.append_assoc]
    exact hstands

end Next

-- ---------------------------------------------------------------------------
-- A complete instance
-- ---------------------------------------------------------------------------

/-- The instance that was waited for goes into its slot. Then the rule starts over; or only the
frame of the start rule is left, with the value of the derivation; or the element is filled. -/
theorem Awaits.insert {f : Frame σ} {rest : List (Frame σ)} {s : Rule (Action σ)} {v w : Value}
    {leaves : List Token}
    (h : Awaits g kinds table start (f :: rest) s v leaves w) (position : Option Position) :
    (s.repeatable = true ∧ ∃ token front rear v', leaves = token :: (front ++ rear) ∧
      Begins g kinds s token front v' ∧
      Awaits g kinds table start (f.insert f.key.index v position s.repeatable ::
        rest) s v' rear w) ∨
    (rest = [] ∧ leaves = [] ∧ (f.insert f.key.index v position s.repeatable).values = [w]) ∨
    Stands g kinds table start (f.insert f.key.index v position s.repeatable :: rest) leaves w := by
  cases h with
  | root hsite hkey hholds hrest =>
    obtain ⟨raws, hfilled, hvalues⟩ := hholds.insert v position
    cases hfilled
    rw [List.length_nil, List.nil_append] at hvalues
    rw [hkey]
    rcases hrest.cases with ⟨hrepeat, token, front, rear, v', rfl, hbegins, hrest'⟩ | ⟨rfl, hw, -⟩
    · refine .inl ⟨hrepeat, token, front, rear, v', rfl, hbegins, .root hsite hkey ?_ hrest'⟩
      rw [hvalues, hrepeat]
      have hnothing : Filled g [] [] [] := .nil
      exact .begun hrepeat hnothing
    · exact .inr (.inl ⟨rfl, rfl, by rw [hvalues, hw]⟩)
  | @inner _ _ r _ pattern index p d before after items _ v' u _ more leaves rest' hseat hd ht hs
      hholds hmore hafter hv hbelow =>
    obtain ⟨raws, hfilled, hvalues⟩ := hholds.insert v position
    rw [length_take_of_getElem? hd] at hvalues
    have hindex : f.key.index = index := by rw [hseat.key_eq]
    rw [hindex]
    rcases hmore.cases
      with ⟨hrepeat, token, front, rear, w', rfl, hbegins, hmore'⟩ | ⟨rfl, hw, hslot⟩
    · refine .inl ⟨hrepeat, token, front, rear ++ (leaves ++ rest'), w', ?_, hbegins, ?_⟩
      · rw [List.cons_append, List.append_assoc]
      · refine .inner (hseat.of_eq rfl rfl) hd ht hs ?_ hmore' hafter hv hbelow
        rw [hvalues, hrepeat]
        exact .begun hrepeat hfilled
    · refine .inr (.inr ?_)
      have hdone := hfilled.append (.cons (hslot d hs) .nil)
      rw [take_append_of_getElem? hd, hw, ← hvalues] at hdone
      rw [List.nil_append]
      refine .intro (hseat.of_eq rfl rfl) hdone hafter ?_ hbelow
      rw [List.append_assoc, ← hw]
      exact hv

-- ---------------------------------------------------------------------------
-- What follows
-- ---------------------------------------------------------------------------

theorem Stands.below_ne_nil {f : Frame σ} {below : List (Frame σ)} {leaves : List Token} {w : Value}
    (h : Stands g kinds table start (f :: below) leaves w) : below ≠ [] := by
  cases h with
  | intro _ _ _ _ hbelow =>
    cases hbelow with
    | root | inner => exact List.cons_ne_nil _ _

/-- A frame above that of the start rule waits at a reference to the rule. -/
theorem Awaits.refers (htable : TableOf g table)
    {f : Frame σ} {rest : List (Frame σ)} {s : Rule (Action σ)} {v w : Value} {leaves : List Token}
    (h : Awaits g kinds table start (f :: rest) s v leaves w) (hrest : rest ≠ []) :
    f.site.state.refersTo? = some s.name := by
  cases h with
  | root => exact absurd rfl hrest
  | @inner _ _ _ _ _ _ _ d _ _ _ _ _ _ _ _ _ _ hseat hd ht hs =>
    have hkey : f.site.state.key = _ := hseat.key_eq
    unfold State.refersTo?
    rw [hseat.tokens_eq htable, hkey, hd, name_of_find?_eq_some hs]
    obtain ⟨kind, name⟩ := d
    cases kind with
    | reference => rfl
    | category | literal | endOfInput => cases ht

/-- A pattern that is filled to its end may end where its frame stands. -/
theorem Seat.reducible_of_empty (htable : TableOf g table)
    {f : Frame σ} {r : Rule (Action σ)} {pattern index : Nat} {q : Pattern (Action σ)}
    (hseat : Seat g table f r pattern index q) {after : List Value}
    (hafter : Slots g kinds (q.tokens.drop (index + 1)) [] after) : f.site.state.reducible = true :=
  (hseat.reducible_iff htable).mpr hafter.of_empty.1

section Follow

variable (htable : TableOf g table) (hplain : g.Plain) {token : Token}
  (hspelled : g.Unspelled kinds token) (hend : token.isEnd = false)

include htable hplain hspelled hend

/-- The next token of the derivation may follow the rule that the innermost frame refers to. -/
theorem Stands.follow {p : Parser σ} (hp : p.grammar = g) {f : Frame σ} {below : List (Frame σ)}
    {leaves : List Token} {w : Value}
    (h : Stands g kinds table start (f :: below) (token :: leaves) w) {name : String}
    (hname : f.site.state.refersTo? = some name) :
    table.Follow name token.terminal := by
  -- the induction is on the stack: what may follow a complete instance is what the frame below says
  induction below generalizing f name with
  | nil => exact absurd rfl h.below_ne_nil
  | cons parent others ih =>
  generalize hleaves : token :: leaves = all at h
  cases h with
  | @intro _ _ r pattern index q before after u _ inside rest hseat hfilled hafter hv hbelow =>
  have hmem := hseat.sits.mem
  have hnext : ∀ t, g.Path ⟨r.id, some pattern, index⟩ t → t.token = token.terminal →
      table.Follow name token.terminal := by
    intro t hpath ht
    rw [← ht]
    exact .next hmem hname ((hseat.mem_transitions_iff htable).mpr hpath)
  rcases List.append_eq_cons_iff.mp hleaves.symm with ⟨rfl, hrest⟩ | ⟨inside', rfl, rfl⟩
  · -- the pattern is filled to its end, and the token comes behind it
    have hreducible := hseat.reducible_of_empty htable hafter
    rcases hbelow.insert none
      with ⟨hrepeat, token', front, rear, v', heq, hbegins, hawaits⟩ | ⟨-, hnil, -⟩ | hstands
    · rw [hrest] at heq
      obtain ⟨rfl, rfl⟩ := List.cons.inj heq
      obtain ⟨other, chain, target, _, _, hway, -⟩ :=
        hawaits.pushes htable hp hseat.sits.table_eq hplain hspelled hend hseat.mem_rules hbegins
      exact hnext _
        (.again hseat.mem_rules hseat.pattern_eq hseat.index_lt hrepeat hafter.of_empty.1 hway) rfl
    · rw [hrest] at hnil
      cases hnil
    · rw [hrest] at hstands
      refine .outer hmem hname hreducible ?_
      have hkey : f.site.state.key = _ := hseat.key_eq
      rw [hkey]
      exact ih hstands (hbelow.refers htable hstands.below_ne_nil)
  · obtain ⟨n, honset⟩ := hafter.onset rfl
    obtain ⟨chain, target, _, _, hway, -⟩ := enters_of_onset htable hp hseat.sits.table_eq hplain
      hspelled hend hseat hfilled honset hv hbelow
    exact hnext _ (.onward hseat.mem_rules hway) rfl

end Follow

end Parser

end GrammarEngine
