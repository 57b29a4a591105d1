import GrammarEngine.Grammar.Compile
import GrammarEngine.MessageLog
import GrammarEngine.Parser.Frame

/-!
# Parsers and their grammars

A parser holds a grammar, the table made from it, and the stack of the parse that is under way. This
module declares the grammar and keeps the table up to date.

Rules are declared one after the other; what is said about patterns goes to the current rule, and
what is said about documentation to its latest pattern. A rule that gave way to another one of its
name stays known, since the stack and the current rule may still refer to it.

The table may be renewed while a parse is under way. Every frame of the stack then moves to
the state of the same identity in the new table; where there is none, the frames above it
stay where they are.

Main results:

* `restore_keys` — renewing the table keeps the identities of all states on the stack.
* `newRule_of_some` — a name that is taken is refused, and nothing changes.
-/

namespace GrammarEngine

/-- A parser that reads from sources of type `σ`. -/
structure Parser (σ : Type) where
  grammar : Grammar (Action σ) := {}
  /-- Rules that gave way to others of their names. -/
  former : List (Rule (Action σ)) := []
  /-- The rule being declared. -/
  current : Option RuleId := none
  /-- The number of rules declared so far. -/
  declared : Nat := 0
  /-- Rules are numbered as they are declared, so a rule declared next is different from
  all of them. -/
  stamped : ∀ r ∈ grammar.rules ++ former, r.id.stamp < declared := by simp
  /-- The kinds of tokens that patterns may name; without any, all may be named. -/
  categories : List String := []
  /-- The kinds of tokens whose text may be a literal. -/
  keywordKinds : List String := ["ID"]
  /-- Where messages go while there is no source. -/
  messages : MessageLog := {}
  source : Option σ := none
  memo : Memo := []
  table : Table := []
  /-- Whether the grammar has changed since the table was made. -/
  isStale : Bool := true
  /-- The frames of the parse under way, the innermost first. -/
  stack : Option (List (Frame σ)) := none
  /-- The frame whose action is running. -/
  reducing : Option (Frame σ) := none
  /-- The kinds of tokens that are not accepted at present. -/
  blocked : List String := []
  /-- The values given to the latest action, and the positions of its elements. -/
  values : Option (List Value) := none
  positions : Option (List (Option Position)) := none

namespace Parser

variable {σ α : Type}

/-! ## Rules -/

/-- The rule of an identity, also if it gave way to another one. -/
def rule? (p : Parser σ) (id : RuleId) : Option (Rule (Action σ)) :=
  (p.grammar.byId? id).orElse fun _ => p.former.find? (·.id == id)

/-- A rule of the grammar is numbered. -/
theorem stamp_lt {p : Parser σ} {r : Rule (Action σ)} (h : r ∈ p.grammar.rules) :
    r.id.stamp < p.declared := p.stamped r (List.mem_append_left _ h)

/-- A rule that gave way is numbered. -/
theorem stamp_lt_of_former {p : Parser σ} {r : Rule (Action σ)} (h : r ∈ p.former) :
    r.id.stamp < p.declared := p.stamped r (List.mem_append_right _ h)

/-- Puts a changed rule where it was. -/
def putBack (r : Rule (Action σ)) (p : Parser σ) : Parser σ :=
  if h : (p.grammar.byId? r.id).isSome then
    { p with
      grammar := p.grammar.put r
      stamped := by
        obtain ⟨s, hs⟩ := Option.isSome_iff_exists.mp h
        have hid : s.id = r.id := by simpa using List.find?_some hs
        intro t ht
        rcases List.mem_append.mp ht with ht | ht
        · rcases Grammar.mem_put_iff.mp ht with rfl | ⟨ht, -⟩
          · exact hid ▸ stamp_lt (List.mem_of_find?_eq_some hs)
          · exact stamp_lt ht
        · exact stamp_lt_of_former ht }
  else
    { p with
      former := p.former.map fun other => if other.id = r.id then r else other
      stamped := by
        intro t ht
        rcases List.mem_append.mp ht with ht | ht
        · exact stamp_lt ht
        · obtain ⟨other, hother, rfl⟩ := List.mem_map.mp ht
          split
          · next hid => exact hid ▸ stamp_lt_of_former hother
          · exact stamp_lt_of_former hother }

/-- Puts in a rule without patterns under a name; a rule that had the name gives way. -/
def putNew (name : String) (p : Parser σ) : Parser σ :=
  { p with
    grammar := p.grammar.put { id := ⟨name, p.declared⟩ }
    former := (p.grammar.find? name).toList ++ p.former
    declared := p.declared + 1
    stamped := by
      intro t ht
      refine Nat.lt_succ_of_le ?_
      rcases List.mem_append.mp ht with ht | ht
      · rcases Grammar.mem_put_iff.mp ht with rfl | ⟨ht, -⟩
        · exact Nat.le_refl _
        · exact Nat.le_of_lt (stamp_lt ht)
      · rcases List.mem_append.mp ht with ht | ht
        · exact Nat.le_of_lt (stamp_lt (List.mem_of_find?_eq_some (Option.mem_toList.mp ht)))
        · exact Nat.le_of_lt (stamp_lt_of_former ht) }

/-- Takes a rule out of the grammar. -/
def takeOut (name : String) (p : Parser σ) : Parser σ :=
  { p with
    grammar := p.grammar.erase name
    former := (p.grammar.find? name).toList ++ p.former
    stamped := by
      intro t ht
      rcases List.mem_append.mp ht with ht | ht
      · exact stamp_lt (List.mem_filter.mp ht).1
      · rcases List.mem_append.mp ht with ht | ht
        · exact stamp_lt (List.mem_of_find?_eq_some (Option.mem_toList.mp ht))
        · exact stamp_lt_of_former ht }

/-- The rule of a name, which has to be there. -/
def named (name : String) : Run (Parser σ) (Rule (Action σ)) := do
  Run.orFail ((← Run.get).grammar.find? name) .missingKey

/-- Declares a rule, and makes it the current one. The name must not be taken. -/
def newRule (name : String) : Run (Parser σ) Unit := do
  let p ← Run.get
  match p.grammar.find? name with
  | some _ => Run.refuse (.duplicateRule name)
  | none => Run.set { p.putNew name with current := some ⟨name, p.declared⟩, isStale := true }

/-- Declares a rule for the time of some further declarations. Afterwards the current rule is the
one it was before. -/
def withRule (name : String) (declarations : Run (Parser σ) α) : Run (Parser σ) α := do
  let saved := (← Run.get).current
  Run.thenAlways (do newRule name; declarations) fun p => { p with current := saved }

/-- Declares a rule for each of some named groups of declarations whose name begins with `rule_`, in
alphabetical order. The rule is named after the rest of the name. -/
def declareRules (groups : List (String × Run (Parser σ) Unit)) : Run (Parser σ) Unit := do
  let inOrder := groups.mergeSort fun a b => decide (a.1 ≤ b.1)
  for (name, declarations) in inOrder do
    if name.startsWith "rule_" then withRule (String.ofList (name.toList.drop 5)) declarations

/-- The rule being declared, which has to be there. -/
def currentRule : Run (Parser σ) (Rule (Action σ)) := do
  let p ← Run.get
  match p.current.bind p.rule? with
  | some r => pure r
  | none => Run.refuse .noRuleYet

/-- Changes the current rule. -/
def changeCurrent (f : Rule (Action σ) → Except Fault (Rule (Action σ))) : Run (Parser σ) Unit := do
  let r ← currentRule
  let r' ← Run.ofExcept (f r)
  Run.modify (putBack r')

/-- Changes the current rule in a way that the table depends on. -/
def reshapeCurrent (f : Rule (Action σ) → Rule (Action σ)) : Run (Parser σ) Unit := do
  changeCurrent fun r => .ok (f r)
  Run.modify fun p => { p with isStale := true }

/-- Adds a pattern to the current rule, and returns its written form. -/
def pattern (elements : List Element) (action : Option (Action σ)) : Run (Parser σ) String := do
  let new ← Run.ofExcept (Pattern.ofElements elements action)
  reshapeCurrent (·.addPattern new)
  pure new.render

/-- Marks the current rule as optional. -/
def optional : Run (Parser σ) Unit := reshapeCurrent ({ · with markedOptional := true })

/-- Marks the current rule as repeatable. -/
def repeatable : Run (Parser σ) Unit := reshapeCurrent ({ · with repeatable := true })

/-- Says something about the current rule. -/
def declare : Clause (Action σ) → Run (Parser σ) Unit
  | .pattern elements action => discard (pattern elements action)
  | .optional => optional
  | .repeatable => repeatable
  | .remark remark => changeCurrent remark.apply

/-- Says something about the rule of a name, and does not tell the table. -/
def amend (name : String) (clause : Clause (Action σ)) : Run (Parser σ) Unit := do
  let r ← named name
  let r' ← Run.ofExcept (clause.apply r)
  Run.modify (putBack r')

/-- Adds a pattern to the rule of a name, and does not tell the table. -/
def addPattern (name : String) (elements : List Element) (action : Option (Action σ)) :
    Run (Parser σ) Unit :=
  amend name (.pattern elements action)

/-- Takes a rule out of the grammar, which has to be there. -/
def dropRule (name : String) : Run (Parser σ) Unit := do
  discard (named name)
  Run.modify (takeOut name)

/-- Declares a rule, with all that is said about it. -/
def declareRule (name : String) (clauses : List (Clause (Action σ))) : Run (Parser σ) Unit :=
  withRule name (clauses.forM declare)

/-- Accepts only some of the known kinds of tokens from now on. -/
def limit (kinds : List String) (p : Parser σ) : Parser σ :=
  { p with blocked := p.categories.filter fun kind => !kinds.contains kind }

/-! ## The table -/

/-- Checks that an element of a rule names something. -/
def checkElement (p : Parser σ) (rule : String) (d : Descriptor) : Except Fault Unit :=
  match d.kind with
  | .reference =>
    if (p.grammar.find? d.name).isSome then .ok () else
      .error (.grammar (.unknownInRule d.name rule))
  | .category =>
    if p.categories.isEmpty || p.categories.contains d.name then .ok ()
    else .error (.grammar (.unknownCategory d.name rule))
  | .literal | .endOfInput => .ok ()

/-- Checks that a rule has patterns, and that all their elements name something. -/
def checkRule (p : Parser σ) (r : Rule (Action σ)) : Except Fault Unit :=
  if r.patterns.isEmpty then .error (.grammar (.noPattern r.name))
  else r.patterns.forM fun pattern => pattern.tokens.forM (p.checkElement r.name)

/-- Makes the table of the grammar as it is, with whatever is known about optional rules. -/
def compileTable : Run (Parser σ) Table := do
  let g := (← Run.get).grammar
  Run.zoom memo (fun memo p => { p with memo := memo }) g.compile

/-- Moves frames, given from the outermost on, to the states of a table. A frame whose state is lost
stays where it is, as do those after it; its state is returned. -/
def restore (table : Table) : List (Frame σ) → List (Frame σ) × Option Key
  | [] => ([], none)
  | f :: rest =>
    match table.find? f.key with
    | some state =>
      let (rest', lost) := restore table rest
      ({ f with site := ⟨table, state⟩ } :: rest', lost)
    | none => (f :: rest, some f.key)

theorem restore_keys (table : Table) (frames : List (Frame σ)) :
    (restore table frames).1.map Frame.key = frames.map Frame.key := by
  induction frames with
  | nil => rfl
  | cons f rest ih =>
    unfold restore
    split
    · next state h => simp [Frame.key, Table.key_of_find?_eq_some h, ← ih]
    · rfl

/-- Brings the table up to date with the grammar, and the stack with the table. -/
def updateTable : Run (Parser σ) Unit := do
  Run.modify fun p => { p with memo := [] }
  let p ← Run.get
  Run.ofExcept (p.grammar.rules.forM p.checkRule)
  let table ← compileTable
  Run.modify fun p => { p with table := table, isStale := false }
  match p.stack with
  | none => pure ()
  | some stack =>
    -- The table stays, and so do the frames moved so far, even if one of them is lost.
    let (frames, lost) := restore table stack.reverse
    Run.modify fun p => { p with stack := some frames.reverse }
    match lost with
    | some key => Run.refuse (.lostState key)
    | none => pure ()

/-- Forgets the parse that is under way, and its source. -/
def reset (p : Parser σ) : Parser σ :=
  { p with
    stack := none
    reducing := none
    blocked := []
    source := none
    values := none
    positions := none }

theorem newRule_of_some {p : Parser σ} {r : Rule (Action σ)} {name : String}
    (h : p.grammar.find? name = some r) :
    (newRule name).run p = ⟨.error (.grammar (.duplicateRule name)), p, []⟩ := by
  simp [newRule, h]

end Parser

end GrammarEngine
