import GrammarEngine.Grammar.Basic

/-!
# The synopsis of a pattern

For the manual a pattern is rendered as a line: literals as they are, arguments and categories
between angle brackets, and references as the synopsis of the rule referred to, with brackets around
what is optional and dots after what repeats. A pattern met again inside itself is a list, and is
rendered as one. Documented arguments met on the way are collected, each name once.

Main results:

* `addDoc_names` — collecting keeps the names of documented arguments apart.
-/

namespace GrammarEngine

/-- The identity of a pattern. -/
abbrev PatternId := RuleId × Nat

/-- What rendering keeps track of: the patterns being rendered, and the arguments collected. -/
structure Manual where
  rendering : List PatternId := []
  docs : List ArgDoc := []
deriving Inhabited

/-- Adds documentation of an argument, unless there is some under the same name. It needs a name. -/
def addDoc (docs : List ArgDoc) (doc : ArgDoc) : Except Fault (List ArgDoc) :=
  if doc.name.isNone then .error (.grammar .namelessArgument)
  else if docs.any (·.name == doc.name) then .ok docs
  else .ok (docs ++ [doc])

theorem addDoc_names {docs docs' : List ArgDoc} {doc : ArgDoc} (h : addDoc docs doc = .ok docs')
    (hd : (docs.map ArgDoc.name).Nodup) : (docs'.map ArgDoc.name).Nodup := by
  unfold addDoc at h
  split at h
  · cases h
  · split at h
    · cases h; exact hd
    · next hany =>
      cases h
      rw [List.map_append, List.nodup_append]
      refine ⟨hd, by simp, ?_⟩
      intro a ha b hb hab
      simp only [List.map_cons, List.map_nil, List.mem_singleton] at hb
      obtain ⟨x, hx, rfl⟩ := List.mem_map.1 ha
      exact hany (List.any_eq_true.2 ⟨x, hx, by simp [hab, hb]⟩)

namespace Manual

/-- Collects documentation of an argument. -/
def collect (doc : ArgDoc) : Run Manual Unit := do
  let m ← Run.get
  let docs ← Run.ofExcept (addDoc m.docs doc)
  Run.set { m with docs := docs }

end Manual

namespace Grammar

variable {α : Type}

/-- Joins the synopses of the alternatives of a rule. -/
def alternatives (r : Rule α) (bodies : List String) : String :=
  let body := " | ".intercalate bodies
  if (Text.trim (fun c => c == ' ' || c == '|') body.toList).isEmpty then ""
  else
    let text := if r.repeatable then body ++ "..." else body
    let text := if 1 < r.patterns.length then "(" ++ text ++ ")" else text
    if r.markedOptional || r.repeatable then "[" ++ text ++ "]" else text

/-- The synopsis of a rule; `render` renders its patterns. -/
def ruleSynopsis (render : PatternId → Pattern α → Run Manual String) (r : Rule α) :
    Run Manual String := do
  let bodies ← r.patterns.zipIdx.mapM fun (p, index) => render (r.id, index) p
  pure (alternatives r bodies)

/-- The synopsis of one element of a pattern, if there is anything to show. -/
def elementSynopsis (g : Grammar α) (render : PatternId → Pattern α → Run Manual String)
    (p : Pattern α) (index : Int) : Run Manual (Option String) := do
  let d ← Run.ofExcept (elementAt p.tokens index)
  match ← Run.ofExcept (elementAt p.args index) with
  | some arg =>
    let (shown, name) := match arg.name with
      | none => (d.name, d.name)
      | some name => ("<" ++ name ++ ">", name)
    let typeSpec := if d.kind = .category then some ("<" ++ d.name ++ ">") else arg.typeSpec
    Manual.collect { arg with name := some name, typeSpec := typeSpec }
    pure (some shown)
  | none =>
    match d.kind with
    | .literal => pure (some d.name)
    | .category => pure (some ("<" ++ d.name ++ ">"))
    | .endOfInput => pure none
    | .reference =>
      let r ← match g.find? d.name with
        | some r => pure r
        | none => Run.refuse (.unknownInPattern d.name p.tokens)
      -- A documented rule is named rather than spelled out.
      let documented := match r.patterns with
        | [only] => if only.doc.isSome then some only else none
        | _ => none
      match documented with
      | some only =>
        Manual.collect { name := only.keyword, pattern := some only.tokens }
        pure (some ("<" ++ only.keyword.getD "None" ++ ">"))
      | none =>
        let text ← ruleSynopsis render r
        pure (if text.isEmpty then none else some text)

/-- The elements of a pattern from index `skip` on, up to the last one shown. -/
def elementsSynopsis (g : Grammar α) (render : PatternId → Pattern α → Run Manual String)
    (p : Pattern α) (skip : Int) : Run Manual String := do
  let count := (p.lastShown + 1 - skip).toNat
  if count = 0 then pure ""
  else
    let d ← Run.ofExcept (elementAt p.tokens skip)
    -- A pattern that opens with a brace describes a block of attributes, which has a
    -- form of its own.
    if d.kind = .literal ∧ d.name = "\x7b" then pure "\x7b <attributes> \x7d"
    else
      let parts ← (List.range count).mapM fun (i : Nat) =>
        elementSynopsis g render p (skip + (i : Int))
      pure (" ".intercalate (parts.filterMap id))

/-- The synopsis of a pattern from an element on. The first argument bounds the nesting
of patterns. -/
def synopsis (g : Grammar α) : Nat → Int → PatternId → Pattern α → Run Manual String
  | 0, _, _, _ => Run.fail .exhausted
  | n + 1, skip, id, p => do
    if (← Run.get).rendering.contains id then pure "[, ... ]"
    else
      Run.modify fun m => { m with rendering := id :: m.rendering }
      Run.thenAlways (elementsSynopsis g (synopsis g n 0) p skip)
        fun m => { m with rendering := m.rendering.filter (· != id) }

/-- The number of patterns. No pattern is rendered inside itself, so this nesting is enough. -/
def patternCount (g : Grammar α) : Nat := (g.rules.flatMap (·.patterns)).length + 2

/-- The synopsis of a pattern, with the arguments it collects. -/
def patternSynopsis (g : Grammar α) (id : PatternId) (p : Pattern α)
    (skip : Int) : Run Manual String :=
  g.synopsis g.patternCount skip id p

/-- The synopsis of a rule as it is shown where the rule is referred to. -/
def inlineSynopsis (g : Grammar α) (r : Rule α) (skip : Int) : Run Manual String :=
  ruleSynopsis (g.synopsis g.patternCount skip) r

/-- The synopses of all patterns of the rule of a name. -/
def synopses (g : Grammar α) (name : String) (skip : Int) : Run Manual (List String) :=
  match g.find? name with
  | none => Run.refuse (.unknownRule name)
  | some r => r.patterns.zipIdx.mapM fun (p, index) => g.patternSynopsis (r.id, index) p skip

end Grammar

end GrammarEngine
