import GrammarEngine.Proofs.Parser.Derivation

/-!
# Derivation trees

That some tokens are an instance of a rule does not say which patterns they are instances of. Here
the derivation itself is written down, as a tree: an instance has its pattern, its first token, and
for each element of the pattern the trees that fill it. A tree is a derivation of its leaves and has
a value (`Derives`); the rows of tokens that have a derivation are the ones that have a tree.

From left to right a tree is a row of marks (`Tree.course`): its tokens, and in front of them the
openings of the instances that begin there, the outer ones first.

Main results:

* `Fills.slot`, `Slot.exists_fills` — a tree is a derivation, and each derivation is one of a tree.
-/

namespace GrammarEngine

variable {σ : Type}

/-- Where an instance of a pattern begins: with its first token. -/
structure Opening (σ : Type) where
  pattern : Pattern (Action σ)
  first : Token

/-- What is met on the way through a derivation, from left to right. -/
inductive Mark (σ : Type) where
  | opens (opening : Opening σ)
  | reads (token : Token)

namespace Mark

/-- The token of a mark. -/
def token? : Mark σ → Option Token
  | .reads token => some token
  | .opens _ => none

/-- The opening of a mark. -/
def opening? : Mark σ → Option (Opening σ)
  | .reads _ => none
  | .opens opening => some opening

/-- The tokens among some marks. -/
def tokens (marks : List (Mark σ)) : List Token := marks.filterMap token?

/-- The openings among some marks. -/
def openings (marks : List (Mark σ)) : List (Opening σ) := marks.filterMap opening?

@[simp] theorem tokens_nil : tokens ([] : List (Mark σ)) = [] := rfl

@[simp] theorem openings_nil : openings ([] : List (Mark σ)) = [] := rfl

@[simp] theorem tokens_cons_reads (token : Token) (marks : List (Mark σ)) :
    tokens (.reads token :: marks) = token :: tokens marks := rfl

@[simp] theorem tokens_cons_opens (opening : Opening σ) (marks : List (Mark σ)) :
    tokens (.opens opening :: marks) = tokens marks := rfl

@[simp] theorem openings_cons_reads (token : Token) (marks : List (Mark σ)) :
    openings (.reads token :: marks) = openings marks := rfl

@[simp] theorem openings_cons_opens (opening : Opening σ) (marks : List (Mark σ)) :
    openings (.opens opening :: marks) = opening :: openings marks := rfl

/-- The tokens of marks one behind the other. -/
@[simp] theorem tokens_append (marks marks' : List (Mark σ)) :
    tokens (marks ++ marks') = tokens marks ++ tokens marks' := List.filterMap_append

/-- And their openings. -/
@[simp] theorem openings_append (marks marks' : List (Mark σ)) :
    openings (marks ++ marks') = openings marks ++ openings marks' := List.filterMap_append

/-- Openings hold no token. -/
@[simp] theorem tokens_map_opens (openings : List (Opening σ)) :
    tokens (openings.map .opens) = [] := by
  induction openings with
  | nil => rfl
  | cons opening rest ih => exact ih

/-- Openings alone have no tokens between them. -/
@[simp] theorem openings_map_opens (openings : List (Opening σ)) :
    Mark.openings (openings.map .opens) = openings := by
  induction openings with
  | nil => rfl
  | cons opening rest ih => exact congrArg (opening :: ·) ih

end Mark

/-- A derivation. An instance of a pattern has for each element the trees that fill it: one, or
several in a row where the element refers to a rule that repeats, or none. -/
inductive Tree (σ : Type) where
  | leaf (token : Token)
  | node (pattern : Pattern (Action σ)) (first : Token) (slots : List (List (Tree σ)))

namespace Tree

mutual

/-- A tree from left to right. -/
def course : Tree σ → List (Mark σ)
  | .leaf token => [.reads token]
  | .node pattern first slots => .opens ⟨pattern, first⟩ :: courseOfRow slots

/-- The trees of a row of elements from left to right. -/
def courseOfRow : List (List (Tree σ)) → List (Mark σ)
  | [] => []
  | trees :: rest => courseOf trees ++ courseOfRow rest

/-- Several trees from left to right. -/
def courseOf : List (Tree σ) → List (Mark σ)
  | [] => []
  | tree :: rest => tree.course ++ courseOf rest

end

/-- Trees are gone through one behind the other. -/
theorem courseOf_append (trees trees' : List (Tree σ)) :
    courseOf (trees ++ trees') = courseOf trees ++ courseOf trees' := by
  induction trees with
  | nil => rfl
  | cons tree rest ih =>
    show tree.course ++ courseOf (rest ++ trees') = tree.course ++ courseOf rest ++ courseOf trees'
    rw [ih, List.append_assoc]

/-- One tree is gone through by itself. -/
theorem courseOf_singleton (tree : Tree σ) : courseOf [tree] = tree.course := List.append_nil _

/-- A row of elements is gone through as the trees of all its slots. -/
theorem courseOfRow_eq (slots : List (List (Tree σ))) :
    courseOfRow slots = courseOf slots.flatten := by
  induction slots with
  | nil => rfl
  | cons trees rest ih =>
    show courseOf trees ++ courseOfRow rest = courseOf (trees ++ rest.flatten)
    rw [courseOf_append, ih]

/-- The tokens of a tree. -/
def leaves (tree : Tree σ) : List Token := Mark.tokens tree.course

/-- The tokens of several trees. -/
def leavesOf (trees : List (Tree σ)) : List Token := Mark.tokens (courseOf trees)

/-- The instances of patterns in several trees, in the order in which they begin. Of those that
begin with the same token the outer ones come first. -/
def instancesOf (trees : List (Tree σ)) : List (Opening σ) := Mark.openings (courseOf trees)

/-- Trees have their leaves one behind the other. -/
theorem leavesOf_append (trees trees' : List (Tree σ)) :
    leavesOf (trees ++ trees') = leavesOf trees ++ leavesOf trees' := by
  unfold leavesOf
  rw [courseOf_append, Mark.tokens_append]

/-- One tree has its own leaves. -/
theorem leavesOf_singleton (tree : Tree σ) : leavesOf [tree] = tree.leaves := by
  unfold leavesOf leaves
  rw [courseOf_singleton]

end Tree

namespace Grammar

variable {g : Grammar (Action σ)} {kinds : List String}

mutual

/-- `Derives g kinds r tree v`: a tree is an instance of the rule `r`, with the value `v`. -/
inductive Derives (g : Grammar (Action σ)) (kinds : List String) :
    Rule (Action σ) → Tree σ → Value → Prop
  | node {r : Rule (Action σ)} {p : Pattern (Action σ)} {first : Token}
      {slots : List (List (Tree σ))} {values : List Value} {v : Value}
      (hp : p ∈ r.patterns) (hslots : FillsRow g kinds p.tokens slots values)
      (hfirst : (Tree.leavesOf slots.flatten).head? = some first)
      (hv : Evaluates p.action values v) : Derives g kinds r (.node p first slots) v

/-- Trees fill a row of elements, from left to right. -/
inductive FillsRow (g : Grammar (Action σ)) (kinds : List String) :
    List Descriptor → List (List (Tree σ)) → List Value → Prop
  | nil : FillsRow g kinds [] [] []
  | cons {d : Descriptor} {rest : List Descriptor} {trees : List (Tree σ)}
      {slots : List (List (Tree σ))} {v : Value} {values : List Value}
      (h : Fills g kinds d trees v) (hrest : FillsRow g kinds rest slots values) :
      FillsRow g kinds (d :: rest) (trees :: slots) (v :: values)

/-- Trees fill one element. -/
inductive Fills (g : Grammar (Action σ)) (kinds : List String) :
    Descriptor → List (Tree σ) → Value → Prop
  /-- A terminal is filled by a token. -/
  | terminal {d : Descriptor} {token : Token} (ht : d.isTerminal = true)
      (h : d.Matches kinds token) : Fills g kinds d [.leaf token] token.value
  /-- A reference is filled by one instance. -/
  | one {d : Descriptor} {s : Rule (Action σ)} {tree : Tree σ} {v : Value}
      (ht : d.isTerminal = false) (hs : g.find? d.name = some s) (hrepeat : s.repeatable = false)
      (h : Derives g kinds s tree v) : Fills g kinds d [tree] v
  /-- A reference to a rule that repeats is filled by several. -/
  | many {d : Descriptor} {s : Rule (Action σ)} {trees : List (Tree σ)} {items : List Value}
      (ht : d.isTerminal = false) (hs : g.find? d.name = some s) (hrepeat : s.repeatable = true)
      (h : DerivesAll g kinds s trees items) : Fills g kinds d trees (.series items)
  /-- A reference to a rule that can match nothing may be left empty. -/
  | missing {d : Descriptor} {s : Rule (Action σ)}
      (ht : d.isTerminal = false) (hs : g.find? d.name = some s)
      (hv : g.Vanishing s) : Fills g kinds d [] (if s.repeatable then .series [] else .nothing)

/-- One or more instances of a rule in a row, with their values collected. -/
inductive DerivesAll (g : Grammar (Action σ)) (kinds : List String) :
    Rule (Action σ) → List (Tree σ) → List Value → Prop
  | first {s : Rule (Action σ)} {tree : Tree σ} {v : Value} (h : Derives g kinds s tree v) :
      DerivesAll g kinds s [tree] (Series.push [] v)
  | more {s : Rule (Action σ)} {trees : List (Tree σ)} {tree : Tree σ} {items : List Value}
      {v : Value} (h : DerivesAll g kinds s trees items) (hlast : Derives g kinds s tree v) :
      DerivesAll g kinds s (trees ++ [tree]) (Series.push items v)

end

/-- Trees with a first token have leaves. -/
theorem leavesOf_ne_nil_of_head? {trees : List (Tree σ)} {first : Token}
    (h : (Tree.leavesOf trees).head? = some first) : Tree.leavesOf trees ≠ [] := by
  intro hnil
  rw [hnil] at h
  cases h

/-- The leaves of an instance are those of what fills its pattern. -/
theorem leaves_node (p : Pattern (Action σ)) (first : Token) (slots : List (List (Tree σ))) :
    (Tree.node p first slots).leaves = Tree.leavesOf slots.flatten := by
  unfold Tree.leaves Tree.leavesOf
  show Mark.tokens (Tree.courseOfRow slots) = _
  rw [Tree.courseOfRow_eq]

mutual

/-- A tree is a derivation of its leaves. -/
theorem Derives.instance {r : Rule (Action σ)} {tree : Tree σ} {v : Value} :
    Derives g kinds r tree v → Instance g kinds r tree.leaves v
  | .node hp hslots hfirst hv => by
    rw [leaves_node]
    exact .intro hp hslots.slots (leavesOf_ne_nil_of_head? hfirst) hv

/-- Trees that fill a row are derivations of their leaves. -/
theorem FillsRow.slots {tokens : List Descriptor} {slots : List (List (Tree σ))}
    {values : List Value} :
    FillsRow g kinds tokens slots values → Slots g kinds tokens (Tree.leavesOf slots.flatten) values
  | .nil => .nil
  | .cons h hrest => by
    rw [List.flatten_cons, Tree.leavesOf_append]
    exact .cons h.slot hrest.slots

/-- So are trees that fill an element. -/
theorem Fills.slot {d : Descriptor} {trees : List (Tree σ)} {v : Value} :
    Fills g kinds d trees v → Slot g kinds d (Tree.leavesOf trees) v
  | .terminal ht h => .terminal ht h
  | .one ht hs hrepeat h => by
    rw [Tree.leavesOf_singleton]
    exact .one ht hs hrepeat h.instance
  | .many ht hs hrepeat h => .many ht hs hrepeat h.instances
  | .missing ht hs hv => .missing ht hs hv

/-- And the instances of a rule in a row. -/
theorem DerivesAll.instances {s : Rule (Action σ)} {trees : List (Tree σ)} {items : List Value} :
    DerivesAll g kinds s trees items → Instances g kinds s (Tree.leavesOf trees) items
  | .first h => by
    rw [Tree.leavesOf_singleton]
    exact .first h.instance
  | .more h hlast => by
    rw [Tree.leavesOf_append, Tree.leavesOf_singleton]
    exact .more h.instances hlast.instance

end

mutual

/-- Each derivation is one of a tree. -/
theorem Instance.exists_derives {r : Rule (Action σ)} {leaves : List Token} {v : Value} :
    Instance g kinds r leaves v → ∃ tree, Derives g kinds r tree v ∧ tree.leaves = leaves
  | .intro hp hslots hleaves hv => by
    obtain ⟨slots, hfills, rfl⟩ := hslots.exists_fills
    refine ⟨.node _ _ slots, .node hp hfills (List.head?_eq_some_head hleaves) hv,
      leaves_node _ _ _⟩

/-- A derivation of a row is one of trees that fill it. -/
theorem Slots.exists_fills {tokens : List Descriptor} {leaves : List Token} {values : List Value} :
    Slots g kinds tokens leaves values → ∃ slots, FillsRow g kinds tokens slots values ∧
      Tree.leavesOf slots.flatten = leaves
  | .nil => ⟨[], .nil, rfl⟩
  | .cons h hrest => by
    obtain ⟨trees, hfills, rfl⟩ := h.exists_fills
    obtain ⟨slots, hrow, rfl⟩ := hrest.exists_fills
    exact ⟨trees :: slots, .cons hfills hrow, Tree.leavesOf_append _ _⟩

/-- A derivation of one element is one of trees that fill it. -/
theorem Slot.exists_fills {d : Descriptor} {leaves : List Token} {v : Value} :
    Slot g kinds d leaves v → ∃ trees, Fills g kinds d trees v ∧ Tree.leavesOf trees = leaves
  | .terminal ht h => ⟨_, .terminal ht h, rfl⟩
  | .one ht hs hrepeat h => by
    obtain ⟨tree, hderives, rfl⟩ := h.exists_derives
    exact ⟨[tree], .one ht hs hrepeat hderives, Tree.leavesOf_singleton tree⟩
  | .many ht hs hrepeat h => by
    obtain ⟨trees, hderives, rfl⟩ := h.exists_derives
    exact ⟨trees, .many ht hs hrepeat hderives, rfl⟩
  | .missing ht hs hv => ⟨[], .missing ht hs hv, rfl⟩

/-- Instances in a row are the instances of trees. -/
theorem Instances.exists_derives {s : Rule (Action σ)} {leaves : List Token} {items : List Value} :
    Instances g kinds s leaves items →
      ∃ trees, DerivesAll g kinds s trees items ∧ Tree.leavesOf trees = leaves
  | .first h => by
    obtain ⟨tree, hderives, rfl⟩ := h.exists_derives
    exact ⟨[tree], .first hderives, Tree.leavesOf_singleton tree⟩
  | .more h hlast => by
    obtain ⟨trees, hderives, rfl⟩ := h.exists_derives
    obtain ⟨tree, hlast', rfl⟩ := hlast.exists_derives
    refine ⟨trees ++ [tree], .more hderives hlast', ?_⟩
    rw [Tree.leavesOf_append, Tree.leavesOf_singleton]

end

end Grammar

end GrammarEngine
