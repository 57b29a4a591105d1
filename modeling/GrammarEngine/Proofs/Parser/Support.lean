import GrammarEngine.Proofs.Parser.Ledger

/-!
# Support levels follow the derivation

Whether a pattern is supported is looked at when a frame is pushed for it, long before it is known
what will fill it. A deprecated pattern is warned about then, at the token that the frame is pushed
with, and a removed one ends the parse.

The frames that a shift pushes are the openings that it adds to the course of the tree
(`Announces`), and nothing else pushes frames. So what is recorded in the course of a parse is what
the openings of the tree so far make of it (`Accounts`), and this account is kept through all
rounds. In the end the tree is a derivation of the input, and its openings are its instances, in the
order in which they begin.

Main results:

* `shift_announces` — a shift records what it opens.
* `ledger_accounts` — what is recorded is an account of the tree.
* `parse_notices` — the warnings of a parse are those of its derivation, which has no
  removed pattern.
-/

namespace GrammarEngine

/-- The keyword that an instance is reported with: that of its pattern, or else the text of
its first token. -/
def Opening.keyword {σ : Type} (o : Opening σ) : String :=
  match o.pattern.keyword with
  | none | some "" => o.first.value.shown
  | some word => word

/-- What is recorded for an instance: a warning at its first token, if its pattern is deprecated. -/
def Opening.notice? {σ : Type} (o : Opening σ) : Option Message :=
  if o.pattern.support = .deprecated then
    some ⟨.warning, "deprecated_keyword",
      "The keyword '" ++ o.keyword ++
        "' has been deprecated! See the reference manual for details.",
      o.first.position, none, .null, []⟩
  else none

theorem MessageLog.add_returns {m : Message} {log log' : MessageLog} {a : Message}
    (h : (MessageLog.add m).Returns log a log') : log' = log.recorded m := by
  unfold MessageLog.add MessageLog.write at h
  obtain ⟨_, log₁, hwrite, h⟩ := Run.returns_bind.mp h
  obtain ⟨log₀, log₂, hget, hwrite⟩ := Run.returns_bind.mp hwrite
  obtain ⟨rfl, rfl⟩ := Run.returns_get.mp hget
  obtain ⟨_, log₃, hset, hwrite⟩ := Run.returns_bind.mp hwrite
  obtain rfl := Run.returns_set.mp hset
  have hecho : log.recorded m = log₁ := by
    split at hwrite
    · exact Run.returns_emit.mp hwrite
    · exact (Run.returns_pure.mp hwrite).2
  obtain ⟨log₄, log₅, hget', h⟩ := Run.returns_bind.mp h
  obtain ⟨rfl, rfl⟩ := Run.returns_get.mp hget'
  split at h
  · exact absurd h Run.not_returns_fail
  · rw [hecho]
    exact (Run.returns_pure.mp h).2.symm

namespace Parser

open Grammar Run

variable {g : Grammar (Action TokenQueue)} {kinds : List String} {table : Table}
  {start : Rule (Action TokenQueue)} {tokens : List Token} {log : List Message}
  {marks : List (Mark TokenQueue)} {p p' p'' : Parser TokenQueue}

-- ---------------------------------------------------------------------------
-- What is announced
-- ---------------------------------------------------------------------------

/-- Some openings are announced: each of a deprecated pattern leaves its notice, and none is of a
removed one. Nothing else becomes of the queue. -/
structure Announces (openings : List (Opening TokenQueue)) (p p' : Parser TokenQueue) : Prop where
  queue : ∀ q, p.source = some q → ∃ log, p'.source = some { q with messages := log } ∧
    log.messages = q.messages.messages ++ openings.filterMap Opening.notice?
  supported : ∀ o ∈ openings, o.pattern.support ≠ .removed

/-- Nothing is announced where the source stays. -/
theorem announces_nil (h : p'.source = p.source) : Announces [] p p' :=
  ⟨fun q hq => ⟨q.messages, h.trans hq, (List.append_nil _).symm⟩, List.forall_mem_nil _⟩

/-- What is announced one after the other is announced together. -/
theorem Announces.trans {openings openings' : List (Opening TokenQueue)}
    (h : Announces openings p p')
    (h' : Announces openings' p' p'') : Announces (openings ++ openings') p p'' where
  queue q hq := by
    obtain ⟨log, hq', hlog⟩ := h.queue q hq
    obtain ⟨log', hq'', hlog'⟩ := h'.queue _ hq'
    refine ⟨log', hq'', ?_⟩
    rw [hlog', hlog, List.filterMap_append, List.append_assoc]
  supported := List.forall_mem_append.mpr ⟨h.supported, h'.supported⟩

/-- A pattern is announced with the token that it begins with. -/
theorem announce_announces {pattern : Pattern (Action TokenQueue)} {token : Token} {u : Unit}
    (hplace : token.position.isSome) (h : (announce pattern token).Returns p u p') :
    Announces [⟨pattern, token⟩] p p' := by
  refine ⟨fun q hq => ?_, List.forall_mem_singleton.mpr (announce_returns h).1⟩
  have hnotice : ∀ m : Option Message, Opening.notice? (⟨pattern, token⟩ : Opening TokenQueue) = m →
      [(⟨pattern, token⟩ : Opening TokenQueue)].filterMap Opening.notice? = m.toList := by
    rintro m rfl
    cases hm : Opening.notice? (⟨pattern, token⟩ : Opening TokenQueue) <;> simp [hm]
  unfold announce at h
  dsimp only at h
  by_cases hsupport : pattern.support = .deprecated
  · rw [hsupport] at h
    dsimp only at h
    rw [hnotice _ (if_pos hsupport)]
    unfold warning at h
    obtain ⟨p₀, p₁, hget, h⟩ := returns_bind.mp h
    obtain ⟨rfl, rfl⟩ := returns_get.mp hget
    rw [hq] at h
    simp only [Option.isSome_some, if_true] at h
    obtain ⟨q₀, q', hq₀, hwarning, rfl⟩ := onSource_returns.mp h
    obtain rfl := Option.some.inj (hq.symm.trans hq₀)
    obtain ⟨m, hreport⟩ := returns_discard.mp hwarning
    obtain ⟨log, hadd, rfl⟩ := returns_zoom.mp hreport
    obtain rfl := MessageLog.add_returns hadd
    obtain ⟨place, hposition⟩ := Option.isSome_iff_exists.mp hplace
    refine ⟨_, rfl, ?_⟩
    show q.messages.messages ++ [_] = q.messages.messages ++ [_]
    rw [hposition]
    rfl
  · rw [hnotice _ (if_neg hsupport)]
    refine ⟨q.messages, ?_, (List.append_nil _).symm⟩
    split at h
    · next hdeprecated => exact absurd hdeprecated hsupport
    · exact absurd h not_returns_error
    all_goals
      obtain ⟨-, rfl⟩ := returns_pure.mp h
      exact hq

/-- A frame that is pushed announces the pattern of its site. -/
theorem pushFrame_opens {site : Site} {token : Token} {u : Unit} (hplace : token.position.isSome)
    (h : (pushFrame site token).Returns p u p') :
    Announces (p.opened token [site.state.key]) p p' := by
  obtain ⟨pattern, p₁, hpattern, hannounce, rfl⟩ := pushFrame_announces h
  rw [opened_cons hpattern]
  exact (announce_announces hplace hannounce).trans (announces_nil rfl)

/-- Which instances are opened depends on the patterns only. -/
theorem opened_of_patternOf? {token : Token} {keys : List Key}
    (h : ∀ k, p'.patternOf? k = p.patternOf? k) : p'.opened token keys = p.opened token keys := by
  unfold opened
  simp only [h]

/-- The patterns that frames are pushed for are announced in their order. -/
theorem enterSkipped_announces {site : Site} {token : Token} {keys : List Key} {u : Unit}
    (hplace : token.position.isSome) (h : (enterSkipped site token false keys).Returns p u p') :
    Announces (p.opened token keys) p p' := by
  induction keys generalizing p with
  | nil =>
    obtain ⟨-, rfl⟩ := returns_pure.mp h
    exact announces_nil rfl
  | cons k rest ih =>
    unfold enterSkipped at h
    obtain ⟨next, p₀, hfollow, h⟩ := returns_bind.mp h
    obtain ⟨hnext, rfl⟩ := follow_returns.mp hfollow
    obtain ⟨_, p₁, hpush, h⟩ := returns_bind.mp h
    have hfirst := pushFrame_opens hplace hpush
    obtain ⟨_, -, hkept, -⟩ := pushFrame_returns hpush
    have hrest := ih h
    rw [(sits_of_follow? rfl hnext).2] at hfirst
    rw [opened_of_patternOf? hkept.patternOf?] at hrest
    have hopened : p.opened token (k :: rest) = p.opened token [k] ++ p.opened token rest :=
      List.filterMap_append (l := [k])
    rw [hopened]
    exact hfirst.trans hrest

/-- The token is put into its slot without a word. -/
theorem deposit_source {t : Transition} {token : Token} {u : Unit}
    (h : (deposit t token).Returns p u p') : p'.source = p.source := by
  obtain ⟨_, _, -, rfl⟩ := deposit_returns h
  rfl

/-- **A shift announces what it opens**: the patterns that frames are pushed for, with the token
that is shifted. -/
theorem shift_announces {site target : Site} {t : Transition} {token : Token}
    (hplace : token.position.isSome) (h : (shift site t token).Returns p target p') :
    Announces (p.opened token (entered site t)) p p' := by
  rw [shift_eq] at h
  obtain ⟨_, p₁, hentered, h⟩ := returns_bind.mp h
  obtain ⟨_, p₂, hdeposit, h⟩ := returns_bind.mp h
  obtain ⟨-, rfl⟩ := follow_returns.mp h
  have hannounces : Announces (p.opened token (entered site t)) p p₁ := by
    unfold entered
    generalize t.skipped ++ [t.target] = keys at hentered ⊢
    cases hmoves : site.state.key.pattern.isSome && !t.loopBack with
    | false =>
      rw [hmoves] at hentered
      exact enterSkipped_announces hplace hentered
    | true =>
      -- the innermost frame goes to the first state without a word
      rw [hmoves] at hentered
      cases keys with
      | nil =>
        obtain ⟨-, rfl⟩ := returns_pure.mp hentered
        exact announces_nil rfl
      | cons k rest =>
        unfold enterSkipped at hentered
        obtain ⟨next, p₀, hfirst, hentered⟩ := returns_bind.mp hentered
        obtain ⟨-, rfl⟩ := follow_returns.mp hfirst
        obtain ⟨_, p₀, hchange, hentered⟩ := returns_bind.mp hentered
        obtain ⟨_, _, -, rfl⟩ := changeTop_returns.mp hchange
        have hrest := enterSkipped_announces hplace hentered
        show Announces ([] ++ p.opened token rest) p p₁
        refine Announces.trans ?_ hrest
        exact announces_nil rfl
  have hdone := hannounces.trans (announces_nil (deposit_source hdeposit))
  rw [List.append_nil] at hdone
  exact hdone

-- ---------------------------------------------------------------------------
-- The queue
-- ---------------------------------------------------------------------------

/-- The tokens still to come from the queue have positions, and these messages have been
recorded. -/
def Carries (messages : List Message) (p : Parser TokenQueue) : Prop :=
  ∃ q, p.source = some q ∧ (∀ t ∈ q.pending.toList ++ q.left, t.position.isSome) ∧
    q.messages.messages = messages

/-- **Announcing instances** adds their notices behind the messages. -/
theorem Announces.carries {openings : List (Opening TokenQueue)} {messages : List Message}
    (h : Announces openings p p') (hp : Carries messages p) :
    Carries (messages ++ openings.filterMap Opening.notice?) p' := by
  obtain ⟨q, hq, hplaces, rfl⟩ := hp
  obtain ⟨log, hq', hlog⟩ := h.queue q hq
  exact ⟨_, hq', hplaces, hlog⟩

theorem Carries.of_source {messages : List Message}
    (h : Carries messages p) (hsource : p'.source = p.source) : Carries messages p' := by
  unfold Carries
  rw [hsource]
  exact h

/-- Reading a token records nothing. -/
theorem Carries.next {messages : List Message} {rounds : Nat} {token : Token}
    (h : Carries messages p) (hnext : (nextToken rounds).Returns p token p') :
    token.position.isSome ∧ Carries messages p' := by
  obtain ⟨q, hq, hplaces, hmessages⟩ := h
  obtain ⟨q₀, q', hq₀, hqueue, rfl⟩ := nextToken_returns hnext
  obtain rfl := Option.some.inj (hq.symm.trans hq₀)
  have hqueue : TokenQueue.next.Returns q token q' := hqueue
  unfold TokenQueue.next at hqueue
  obtain ⟨q₁, q₂, hget, hqueue⟩ := returns_bind.mp hqueue
  obtain ⟨rfl, rfl⟩ := returns_get.mp hget
  split at hqueue
  · next t hpending =>
    obtain ⟨_, q₃, hset, hqueue⟩ := returns_bind.mp hqueue
    obtain rfl := returns_set.mp hset
    obtain ⟨rfl, rfl⟩ := returns_pure.mp hqueue
    rw [hpending] at hplaces
    obtain ⟨htoken, hleft⟩ := List.forall_mem_cons.mp hplaces
    exact ⟨htoken, _, rfl, hleft, hmessages⟩
  · next t rest hpending hleft =>
    obtain ⟨_, q₃, hset, hqueue⟩ := returns_bind.mp hqueue
    obtain rfl := returns_set.mp hset
    obtain ⟨rfl, rfl⟩ := returns_pure.mp hqueue
    rw [hpending, hleft] at hplaces
    obtain ⟨htoken, hrest⟩ := List.forall_mem_cons.mp hplaces
    refine ⟨htoken, _, rfl, ?_, hmessages⟩
    rw [hpending]
    exact hrest
  · obtain ⟨rfl, rfl⟩ := returns_pure.mp hqueue
    exact ⟨rfl, _, rfl, hplaces, hmessages⟩

/-- Giving a token back adds no message. -/
theorem Carries.giveBack {messages : List Message} {token : Option Token} {u : Unit}
    (h : Carries messages p) (hplace : ∀ t ∈ token, t.position.isSome)
    (hback : (giveBack token).Returns p u p') : Carries messages p' := by
  cases token with
  | none =>
    obtain ⟨-, rfl⟩ := returns_pure.mp hback
    exact h
  | some t =>
    obtain ⟨q, hq, hplaces, hmessages⟩ := h
    obtain ⟨q₀, q', hq₀, hqueue, rfl⟩ := giveBack_returns hback
    obtain rfl := Option.some.inj (hq.symm.trans hq₀)
    obtain ⟨-, rfl⟩ := pushBack_returns hqueue
    refine ⟨_, rfl, List.forall_mem_cons.mpr ⟨hplace t rfl, fun t' ht' => ?_⟩, hmessages⟩
    exact hplaces t' (List.mem_append_right _ ht')

-- ---------------------------------------------------------------------------
-- Keeping account
-- ---------------------------------------------------------------------------

/-- A parser in the middle of a parse, with the tree of some marks, and perhaps a token read
ahead. The notices of all openings of the tree have been recorded, and none of them is of a
removed pattern. -/
structure Accounts (g : Grammar (Action TokenQueue)) (kinds : List String) (table : Table)
    (tokens : List Token) (log : List Message) (marks : List (Mark TokenQueue))
    (ahead : Option Token) (p : Parser TokenQueue) : Prop where
  parsing : Parsing g kinds table tokens (Mark.tokens marks ++ ahead.toList) p
  placed : ∀ t ∈ ahead, t.position.isSome
  carries : Carries (log ++ (Mark.openings marks).filterMap Opening.notice?) p
  supported : ∀ o ∈ Mark.openings marks, o.pattern.support ≠ .removed

/-- The notices of a tree are an account of it. -/
theorem ledger_accounts : Ledger g kinds table tokens (Accounts g kinds table tokens log) where
  parsing h := h.parsing
  of_source h hkept hsource :=
    ⟨h.parsing.kept hkept, h.placed, h.carries.of_source hsource, h.supported⟩
  read h hnext := by
    have hparse := h.parsing
    rw [Option.toList_none, List.append_nil] at hparse
    obtain ⟨hplace, hcarries⟩ := h.carries.next hnext
    refine ⟨(hparse.next hnext).1, ?_, hcarries, h.supported⟩
    rintro _ ⟨⟩
    exact hplace
  unread h hback := by
    refine ⟨?_, nofun, h.carries.giveBack h.placed hback, h.supported⟩
    rw [Option.toList_none, List.append_nil]
    exact h.parsing.giveBack hback
  shifted h hshift := by
    -- a shift adds what it opens, and its token
    obtain ⟨-, hkept, -⟩ := shift_returns hshift
    have hannounces := shift_announces (h.placed _ rfl) hshift
    constructor
    · rw [Mark.tokens_append, Mark.tokens_append, Mark.tokens_map_opens, Option.toList_none,
        List.append_nil]
      exact h.parsing.kept hkept
    · exact nofun
    · rw [Mark.openings_append, Mark.openings_append, Mark.openings_map_opens,
        Mark.openings_cons_reads,
        Mark.openings_nil, List.append_nil, List.filterMap_append, ← List.append_assoc]
      exact hannounces.carries h.carries
    · rw [Mark.openings_append, Mark.openings_append, Mark.openings_map_opens,
        Mark.openings_cons_reads, Mark.openings_nil, List.append_nil]
      exact List.forall_mem_append.mpr ⟨h.supported, hannounces.supported⟩

-- ---------------------------------------------------------------------------
-- The whole parse
-- ---------------------------------------------------------------------------

/-- At first the queue holds all of the input, and nothing has been recorded. -/
theorem accounts_of_source {q : TokenQueue} (hgrammar : p.grammar = g) (htable : p.table = table)
    (hkinds : p.keywordKinds = kinds) (hsource : p.source = some q) (hpending : q.pending = none)
    (htokens : ∀ t ∈ q.left, t.isEnd = false ∧ t.position.isSome) :
    Accounts g kinds table q.left q.messages.messages [] none p := by
  have hfed : Fed q.left [] q := by
    refine ⟨fun t ht => (htokens t ht).1, [], List.forall_mem_nil _, ?_⟩
    rw [hpending, List.append_nil]
    rfl
  have hplaces : ∀ t ∈ q.pending.toList ++ q.left, t.position.isSome := by
    rw [hpending]
    exact fun t ht => (htokens t ht).2
  exact ⟨⟨hgrammar, htable, hkinds, q, hsource, hfed⟩, nofun,
    ⟨q, hsource, hplaces, (List.append_nil _).symm⟩, List.forall_mem_nil _⟩

/-- **Support levels follow the derivation.** If the parse of a queue of tokens with positions
returns a value, there is a derivation of the input that has the value, and no instance in it is of
a removed pattern. What the parse has recorded is one warning for each instance of a deprecated
pattern, at its first token, in the order in which the instances begin. -/
theorem parse_notices {q : TokenQueue} {rule : String} {rounds : Nat} {v : Value}
    (hpure : p.grammar.Pure)
    (hpending : q.pending = none) (htokens : ∀ t ∈ q.left, t.isEnd = false ∧ t.position.isSome)
    (h : (updateTable >>= fun _ => parse rounds rule q).Returns p v p') :
    ∃ trees ends q', (∀ e ∈ ends, e.isEnd = true) ∧ Tree.leavesOf trees = q.left ++ ends ∧
      p.grammar.Fills p.keywordKinds ⟨.reference, rule⟩ trees v ∧
      (∀ o ∈ Tree.instancesOf trees, o.pattern.support ≠ .removed) ∧ p'.source = some q' ∧
      q'.messages.messages =
        q.messages.messages ++ (Tree.instancesOf trees).filterMap Opening.notice? := by
  obtain ⟨_, p₁, hupdate, hparse⟩ := returns_bind.mp h
  obtain ⟨-, htable, ⟨memo, stack, hp₁⟩, -⟩ := updateTable_returns hupdate
  have hgrammar : p₁.grammar = p.grammar := by rw [hp₁]
  have hkinds : p₁.keywordKinds = p.keywordKinds := by rw [hp₁]
  have hends : ∀ t ∈ q.left, t.isEnd = false := fun t ht => (htokens t ht).1
  have hinit : Accounts p.grammar p.keywordKinds p₁.table q.left q.messages.messages [] none
      { p₁ with source := some q } := accounts_of_source hgrammar rfl hkinds rfl hpending htokens
  obtain ⟨trees, ends, ahead, hends', hleaves, hfills, haccounts⟩ :=
    ledger_accounts.parse_grows htable hpure hends (by rw [hp₁]) hinit hparse
  obtain ⟨q', hq', -, hmessages⟩ := haccounts.carries
  exact ⟨trees, ends, q', hends', hleaves, hfills, haccounts.supported, hq', hmessages⟩

/-- A list of any number of items up to the end of the input. Lists are deprecated, and words as
well; numbers are removed. -/
private def agedLists : Parser TokenQueue where
  grammar :=
    { rules :=
        [{ id := ⟨"list", 0⟩
           patterns :=
            [{ Pattern.ofTokens [⟨.reference, "items"⟩, .atEnd]
                (some fun values => .done (values.headD .nothing)) with
              support := .deprecated }] },
          { id := ⟨"items", 1⟩
            patterns :=
              [{ Pattern.ofTokens [⟨.category, "ID"⟩]
                  (some fun values => .done (values.headD .nothing)) with
                keyword := some "word", support := .deprecated },
              { Pattern.ofTokens [⟨.category, "INTEGER"⟩] none with support := .removed }]
            markedOptional := true
            repeatable := true }]
      distinct := by decide }
  declared := 2
  stamped := by decide

/-- Two words in a row. -/
private def twoOldWords : TokenQueue :=
  .ofTokens "words" [("ID", .text "a", none), ("ID", .text "b", none)]

private theorem pure_agedLists : agedLists.grammar.Pure := by
  intro r hr pattern hpattern action haction values
  simp only [agedLists, List.mem_cons, List.not_mem_nil, or_false] at hr
  rcases hr with rfl | rfl <;>
    simp only [List.mem_cons, List.not_mem_nil, or_false] at hpattern
  · subst hpattern
    exact .inl ⟨values.headD .nothing, by rw [← Option.some.inj haction]⟩
  · rcases hpattern with rfl | rfl
    · exact .inl ⟨values.headD .nothing, by rw [← Option.some.inj haction]⟩
    · cases haction

/-- The list and its two words are warned about: the list and the first word at the same token. -/
theorem parse_notices_words :
    ((updateTable >>= fun _ => parse 9 "list" twoOldWords).run agedLists).result.toOption =
        some (.series [.text "a", .text "b"]) ∧
      (((updateTable >>= fun _ => parse 9 "list" twoOldWords).run agedLists).state.source.map
        fun q => q.messages.messages.map fun m => (m.id, m.text, m.position)) =
        some [("deprecated_keyword",
          "The keyword 'a' has been deprecated! See the reference manual for details.",
            some ⟨"words", 1, 1⟩),
          ("deprecated_keyword",
            "The keyword 'word' has been deprecated! See the reference manual for details.",
            some ⟨"words", 1, 1⟩),
          ("deprecated_keyword",
            "The keyword 'word' has been deprecated! See the reference manual for details.",
            some ⟨"words", 2, 1⟩)] ∧
      ∃ trees ends q',
          (∀ e ∈ ends, e.isEnd = true) ∧ Tree.leavesOf trees = twoOldWords.left ++ ends ∧
        agedLists.grammar.Fills agedLists.keywordKinds ⟨.reference, "list"⟩ trees
          (.series [.text "a", .text "b"]) ∧
        (∀ o ∈ Tree.instancesOf trees, o.pattern.support ≠ .removed) ∧
        ((updateTable >>= fun _ => parse 9 "list" twoOldWords).run agedLists).state.source =
          some q' ∧ q'.messages.messages =
          twoOldWords.messages.messages ++ (Tree.instancesOf trees).filterMap Opening.notice? := by
  have hresult :
      ((updateTable >>= fun _ => parse 9 "list" twoOldWords).run agedLists).result.toOption =
      some (.series [.text "a", .text "b"]) := by decide +kernel
  exact ⟨hresult, by decide +kernel,
    parse_notices pure_agedLists rfl (by decide) (returns_of_result hresult)⟩

end Parser

end GrammarEngine
