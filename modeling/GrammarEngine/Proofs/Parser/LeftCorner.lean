import GrammarEngine.Proofs.Parser.Derivation

/-!
# Derivations from their first token on

A parser that reads from left to right meets a derivation at its first token. That token stands in
some pattern, which is the first part of an element of another pattern, and so on up to the row of
elements that is being derived: the left corner of the derivation. `Onset` says that a row of
elements is derived from some tokens and takes the derivation apart along its left corner: which
element of the row comes first with a token, and how that element goes on.

Instances in a row were collected from left to right; seen from the first of them there is one, and
then there are more of them (`More`), which go behind the values collected so far.

Main results:

* `Slots.onset` — a row of elements that some tokens fill has an onset.
* `Slot.collects` — a reference that some tokens fill begins with an instance, and the slot
  goes on from there.
-/

namespace GrammarEngine

namespace Grammar

variable {σ : Type} {g : Grammar (Action σ)} {kinds : List String}

-- ---------------------------------------------------------------------------
-- One instance after the other
-- ---------------------------------------------------------------------------

/-- `More g kinds s items leaves items'`: behind the instances of `s` with the values `items` come
others, so that there are the values `items'` in the end. -/
inductive More (g : Grammar (Action σ)) (kinds : List String) (s : Rule (Action σ)) :
    List Value → List Token → List Value → Prop
  | done (items : List Value) : More g kinds s items [] items
  | more {items items' : List Value} {leaves leaves' : List Token} {v : Value}
      (h : Instance g kinds s leaves v)
      (hrest : More g kinds s (Series.push items v) leaves' items') :
      More g kinds s items (leaves ++ leaves') items'

theorem More.snoc {s : Rule (Action σ)} {items items' : List Value} {leaves leaves' : List Token}
    {v : Value} (h : More g kinds s items leaves items') (hlast : Instance g kinds s leaves' v) :
    More g kinds s items (leaves ++ leaves') (Series.push items' v) := by
  induction h with
  | done items =>
    have hone : More g kinds s items (leaves' ++ []) _ := .more hlast (.done _)
    rw [List.append_nil] at hone
    exact hone
  | more hfirst _ ih =>
    rw [List.append_assoc]
    exact .more hfirst ih

/-- `Collects g kinds s items v leaves w`: behind the values `items` of a slot for `s` comes an
instance with the value `v`. The rest of the slot is filled by `leaves`, and its value is `w`. -/
inductive Collects (g : Grammar (Action σ)) (kinds : List String) (s : Rule (Action σ))
    (items : List Value) (v : Value) : List Token → Value → Prop
  | single (hrepeat : s.repeatable = false) : Collects g kinds s items v [] v
  | several {leaves : List Token} {items' : List Value} (hrepeat : s.repeatable = true)
      (h : More g kinds s (Series.push items v) leaves items') :
      Collects g kinds s items v leaves (.series items')

-- ---------------------------------------------------------------------------
-- Onsets
-- ---------------------------------------------------------------------------

/-- `Onset g kinds token row n leaves values`: `token` and then `leaves` fill a row of elements,
with the values `values`, and the element of the index `n` is the first one that is not left empty.
Either `token` is that element, or the element refers to a rule and `token` is the onset of one of
its patterns. -/
inductive Onset (g : Grammar (Action σ)) (kinds : List String) (token : Token) :
    List Descriptor → Nat → List Token → List Value → Prop
  | terminal {row : List Descriptor} {n : Nat} {d : Descriptor} {leaves : List Token}
      {before after : List Value} (hd : row[n]? = some d) (ht : d.isTerminal = true)
      (hmatch : d.Matches kinds token) (hbefore : Slots g kinds (row.take n) [] before)
      (hafter : Slots g kinds (row.drop (n + 1)) leaves after) :
      Onset g kinds token row n leaves (before ++ token.value :: after)
  | enter {row : List Descriptor} {n m pattern : Nat} {d : Descriptor} {s : Rule (Action σ)}
      {p : Pattern (Action σ)} {first more leaves : List Token} {values before after : List Value}
      {v w : Value}
      (hd : row[n]? = some d) (ht : d.isTerminal = false) (hs : g.find? d.name = some s)
      (hp : s.patterns[pattern]? = some p) (hfirst : Onset g kinds token p.tokens m first values)
      (hv : Evaluates p.action values v) (hmore : Collects g kinds s [] v more w)
      (hbefore : Slots g kinds (row.take n) [] before)
      (hafter : Slots g kinds (row.drop (n + 1)) leaves after) :
      Onset g kinds token row n (first ++ (more ++ leaves)) (before ++ w :: after)

/-- An instance of a rule that begins with a token: it is the onset of one of the patterns. -/
def Begins (g : Grammar (Action σ)) (kinds : List String) (s : Rule (Action σ)) (token : Token)
    (leaves : List Token) (v : Value) : Prop :=
  ∃ (pattern : Nat) (p : Pattern (Action σ)) (n : Nat) (values : List Value), s.patterns[pattern]? =
    some p ∧ Onset g kinds token p.tokens n leaves values ∧ Evaluates p.action values v

/-- A row of elements with one more in front, which is left empty. -/
theorem Onset.cons {d : Descriptor} {row : List Descriptor} {n : Nat} {token : Token}
    {leaves : List Token} {v : Value} {values : List Value}
    (hd : Slot g kinds d [] v) (h : Onset g kinds token row n leaves values) :
    Onset g kinds token (d :: row) (n + 1) leaves (v :: values) := by
  cases h with
  | @terminal _ _ d' _ before after hrow ht hmatch hbefore hafter =>
    have hrow' : (d :: row)[n + 1]? = some d' := hrow
    have hbefore' : Slots g kinds ((d :: row).take (n + 1)) [] (v :: before) := .cons hd hbefore
    exact .terminal hrow' ht hmatch hbefore' hafter
  | @enter _ _ _ _ d' _ _ _ _ _ _ before _ _ _ hrow ht hs hp hfirst hv hmore hbefore hafter =>
    have hrow' : (d :: row)[n + 1]? = some d' := hrow
    have hbefore' : Slots g kinds ((d :: row).take (n + 1)) [] (v :: before) := .cons hd hbefore
    exact .enter hrow' ht hs hp hfirst hv hmore hbefore' hafter

/-- A row of elements whose first one is the token. -/
theorem Onset.head_terminal {d : Descriptor} {row : List Descriptor} {token : Token}
    {leaves : List Token} {values : List Value}
    (ht : d.isTerminal = true) (h : d.Matches kinds token)
    (hrest : Slots g kinds row leaves values) :
    Onset g kinds token (d :: row) 0 leaves (token.value :: values) := by
  have hd : (d :: row)[0]? = some d := rfl
  have hbefore : Slots g kinds ((d :: row).take 0) [] [] := .nil
  exact .terminal hd ht h hbefore hrest

/-- A row of elements whose first one begins with an instance. -/
theorem Onset.head_begins {d : Descriptor} {row : List Descriptor} {s : Rule (Action σ)}
    {token : Token} {first more leaves : List Token} {v w : Value} {values : List Value}
    (ht : d.isTerminal = false) (hs : g.find? d.name = some s)
    (hfirst : Begins g kinds s token first v) (hmore : Collects g kinds s [] v more w)
    (hrest : Slots g kinds row leaves values) :
    Onset g kinds token (d :: row) 0 (first ++ (more ++ leaves)) (w :: values) := by
  obtain ⟨pattern, p, m, _, hp, honset, hv⟩ := hfirst
  have hd : (d :: row)[0]? = some d := rfl
  have hbefore : Slots g kinds ((d :: row).take 0) [] [] := .nil
  exact .enter hd ht hs hp honset hv hmore hbefore hrest

mutual

/-- An instance begins with a token. -/
theorem Instance.begins {s : Rule (Action σ)} {leaves : List Token} {v : Value} :
    Instance g kinds s leaves v →
      ∃ token rest, leaves = token :: rest ∧ Begins g kinds s token rest v
  | .intro hp hslots hleaves hv => by
    obtain ⟨pattern, hpattern⟩ := List.getElem?_of_mem hp
    obtain ⟨token, rest, heq⟩ := List.exists_cons_of_ne_nil hleaves
    obtain ⟨n, honset⟩ := hslots.onset heq
    exact ⟨token, rest, heq, pattern, _, n, _, hpattern, honset, hv⟩

/-- A row of elements that some tokens fill has an onset. -/
theorem Slots.onset {row : List Descriptor} {leaves rest : List Token} {values : List Value}
    {token : Token} :
    Slots g kinds row leaves values → leaves = token :: rest →
      ∃ n, Onset g kinds token row n rest values
  | .nil, heq => nomatch heq
  | .cons h hrest, heq => by
    rcases List.append_eq_cons_iff.mp heq with ⟨hempty, hrear⟩ | ⟨front, hfront, rfl⟩
    · obtain ⟨n, honset⟩ := hrest.onset hrear
      rw [hempty] at h
      exact ⟨n + 1, honset.cons h⟩
    · exact ⟨0, h.onset hfront hrest⟩

/-- A row of elements has its onset at the first of them, if that is not left empty. -/
theorem Slot.onset {d : Descriptor} {row : List Descriptor} {leaves front rear : List Token}
    {v : Value} {values : List Value} {token : Token} :
    Slot g kinds d leaves v → leaves = token :: front → Slots g kinds row rear values →
      Onset g kinds token (d :: row) 0 (front ++ rear) (v :: values)
  | .terminal ht h, heq, hrest => by
    obtain ⟨rfl, rfl⟩ := List.cons.inj heq
    exact .head_terminal ht h hrest
  | .one ht hs hrepeat h, heq, hrest => by
    obtain ⟨_, _, hleaves, hfirst⟩ := h.begins
    obtain ⟨rfl, rfl⟩ := List.cons.inj (hleaves.symm.trans heq)
    exact .head_begins ht hs hfirst (.single hrepeat) hrest
  | .many ht hs hrepeat h, heq, hrest => by
    obtain ⟨_, first, more, w, hleaves, hfirst, hmore⟩ := h.begins
    obtain ⟨rfl, rfl⟩ := List.cons.inj (hleaves.symm.trans heq)
    rw [List.append_assoc]
    exact .head_begins ht hs hfirst (.several hrepeat hmore) hrest
  | .missing _ _ _, heq, _ => nomatch heq

theorem Instances.begins {s : Rule (Action σ)} {leaves : List Token} {items : List Value} :
    Instances g kinds s leaves items → ∃ token first more v, leaves = token :: (first ++ more) ∧
      Begins g kinds s token first v ∧ More g kinds s (Series.push [] v) more items
  | .first h => by
    obtain ⟨token, rest, heq, hbegins⟩ := h.begins
    exact ⟨token, rest, [], _, by rw [heq, List.append_nil], hbegins, .done _⟩
  | .more h hlast => by
    obtain ⟨token, first, more, v, heq, hbegins, hmore⟩ := h.begins
    exact ⟨token, first, _, v,
      by rw [heq, List.cons_append, List.append_assoc], hbegins, hmore.snoc hlast⟩

end

/-- A reference is left empty, or it begins with an instance and its slot goes on from there. -/
theorem Slot.collects {d : Descriptor} {leaves : List Token} {v : Value} (ht : d.isTerminal = false)
    (h : Slot g kinds d leaves v) : ∃ s, g.find? d.name = some s ∧
      ((leaves = [] ∧ g.Vanishing s ∧ v = if s.repeatable then .series [] else .nothing) ∨
        ∃ token first more w, leaves = token :: (first ++ more) ∧ Begins g kinds s token first w ∧
          Collects g kinds s [] w more v) := by
  cases h with
  | terminal ht' =>
    rw [ht] at ht'
    cases ht'
  | one _ hs hrepeat h =>
    obtain ⟨token, rest, rfl, hbegins⟩ := h.begins
    exact ⟨_, hs, .inr ⟨token, rest, [], v, by rw [List.append_nil], hbegins, .single hrepeat⟩⟩
  | many _ hs hrepeat h =>
    obtain ⟨token, first, more, w, rfl, hbegins, hmore⟩ := h.begins
    exact ⟨_, hs, .inr ⟨token, first, more, w, rfl, hbegins, .several hrepeat hmore⟩⟩
  | missing _ hs hv => exact ⟨_, hs, .inl ⟨rfl, hv, rfl⟩⟩

end Grammar

end GrammarEngine
