import GrammarEngine.Proofs.Parser.Derivation
import GrammarEngine.Proofs.Parser.Tables

/-!
# Where frames are

A frame that is pushed in a parse stands at a state inside a pattern, and has the action of that
pattern. All that its state says, the elements, whether the pattern may end and where it may go on,
is what the grammar says of that place.

Main results:

* `Seat.reducible_iff`, `Seat.mem_transitions_iff` — what the state of a frame says.
* `way_of_entry` — what the state says where a rule is entered.
* `seat_of_pushed` — a frame that is pushed has its seat.
-/

namespace GrammarEngine

namespace Parser

open Grammar

variable {σ : Type}

/-- A frame is inside a pattern of a rule, behind an element, and has the action of the pattern. -/
structure Seat (g : Grammar (Action σ)) (table : Table) (f : Frame σ) (r : Rule (Action σ))
    (pattern index : Nat) (p : Pattern (Action σ)) : Prop where
  mem_rules : r ∈ g.rules
  pattern_eq : r.patterns[pattern]? = some p
  index_lt : index < p.tokens.length
  sits : Sits table f.site
  key_eq : f.key = ⟨r.id, some pattern, index⟩
  action_eq : f.action = p.action

theorem Seat.of_eq {g : Grammar (Action σ)} {table : Table} {f f' : Frame σ} {r : Rule (Action σ)}
    {pattern index : Nat} {p : Pattern (Action σ)} (h : Seat g table f r pattern index p)
    (hsite : f'.site = f.site) (haction : f'.action = f.action) :
    Seat g table f' r pattern index p where
  mem_rules := h.mem_rules
  pattern_eq := h.pattern_eq
  index_lt := h.index_lt
  sits := by rw [hsite]; exact h.sits
  key_eq := by rw [Frame.key, hsite]; exact h.key_eq
  action_eq := haction.trans h.action_eq

/-- The action of a frame is one of the grammar. -/
theorem Seat.pure {g : Grammar (Action σ)} {table : Table} {f : Frame σ} {r : Rule (Action σ)}
    {pattern index : Nat} {p : Pattern (Action σ)}
    (hpure : g.Pure) (h : Seat g table f r pattern index p) :
    ∀ action, f.action = some action → ∀ values,
      (∃ v, action values = .done v) ∨ ∃ fault, action values = .fail fault := by
  intro action haction
  rw [h.action_eq] at haction
  exact hpure _ h.mem_rules _ (List.mem_of_getElem? h.pattern_eq) action haction

section State

variable {g : Grammar (Action σ)} {table : Table} (htable : TableOf g table)
  {f : Frame σ} {r : Rule (Action σ)} {pattern index : Nat} {p : Pattern (Action σ)}

include htable

/-- The state of a frame knows the elements of the pattern. -/
theorem Seat.tokens_eq (h : Seat g table f r pattern index p) : f.site.state.tokens = p.tokens := by
  have hkey : f.site.state.key = ⟨r.id, some pattern, index⟩ := h.key_eq
  exact htable.tokens _ h.sits.mem r h.mem_rules pattern p (by rw [hkey]) (by rw [hkey])
    h.pattern_eq

/-- The pattern of a frame may end if all that is left of it can be passed over. -/
theorem Seat.reducible_iff (h : Seat g table f r pattern index p) :
    f.site.state.reducible = true ↔ ∀ d ∈ p.tokens.drop (index + 1), g.Skippable d := by
  have hkey : f.site.state.key = ⟨r.id, some pattern, index⟩ := h.key_eq
  rw [htable.reducible _ h.sits.mem, hkey, ending_inside_iff h.mem_rules h.pattern_eq h.index_lt]

/-- The transitions of the state of a frame are the paths from there. -/
theorem Seat.mem_transitions_iff (h : Seat g table f r pattern index p) {t : Transition} :
    t ∈ f.site.state.transitions ↔ g.Path ⟨r.id, some pattern, index⟩ t := by
  have hkey : f.site.state.key = ⟨r.id, some pattern, index⟩ := h.key_eq
  rw [htable.path _ h.sits.mem, hkey]

end State

/-- The transitions of the entry of a rule are the ways into it, and none of them loops back. -/
theorem way_of_entry {g : Grammar (Action σ)} {table : Table} (htable : TableOf g table)
    {site : Site} {r : Rule (Action σ)} (hr : r ∈ g.rules) (hsite : Sits table site)
    (hkey : site.state.key = ⟨r.id, none, 0⟩) {t : Transition} (ht : t ∈ site.state.transitions) :
    t.loopBack = false ∧ ∃ pattern, g.Way r pattern 0 t.skipped t.target t.token := by
  have hpath := (htable.path _ hsite.mem t).mp ht
  rw [hkey] at hpath
  obtain ⟨pattern, _, _, _, rfl, hway⟩ := (path_entry_iff hr).mp hpath
  exact ⟨rfl, pattern, hway⟩

/-- The frame that is pushed for an element. -/
theorem seat_of_pushed {g : Grammar (Action σ)} {table : Table} {p : Parser σ} (token : Token)
    (hp : p.grammar = g) {site next : Site} {r : Rule (Action σ)} {pattern index : Nat}
    {q q' : Pattern (Action σ)} (hsite : site.table = table) (hr : r ∈ g.rules)
    (hq : r.patterns[pattern]? = some q) (hindex : index < q.tokens.length)
    (hnext : site.follow? ⟨r.id, some pattern, index⟩ = some next)
    (hpattern : p.patternOf? next.state.key = some q') :
    Seat g table { site := next, action := q'.action, first := token.position } r pattern
      index q := by
  obtain ⟨hsits, hkey⟩ := sits_of_follow? hsite hnext
  rw [hkey, patternOf?_of_mem hp hr hq] at hpattern
  cases hpattern
  exact ⟨hr, hq, hindex, hsits, hkey, rfl⟩

/-- A frame that moves on in its pattern keeps its seat there. -/
theorem Seat.moved {g : Grammar (Action σ)} {table : Table} {f : Frame σ} {r : Rule (Action σ)}
    {pattern index next : Nat} {q : Pattern (Action σ)} (h : Seat g table f r pattern index q)
    {site site' : Site} (hsite : site.table = table) (hnext : next < q.tokens.length)
    (hfollow : site.follow? ⟨r.id, some pattern, next⟩ = some site') :
    Seat g table { f with site := site' } r pattern next q := by
  obtain ⟨hsits, hkey⟩ := sits_of_follow? hsite hfollow
  exact ⟨h.mem_rules, h.pattern_eq, hnext, hsits, hkey, h.action_eq⟩

end Parser

end GrammarEngine
