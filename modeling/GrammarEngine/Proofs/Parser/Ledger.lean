import GrammarEngine.Proofs.Parser.Branches
import GrammarEngine.Proofs.Parser.Queue

/-!
# Keeping account of the tree

Round by round a parse grows a tree, and more than its stack depends on it: which tokens are left
of the input, what has been recorded. A ledger is any account that is kept of the tree so far and
of the token that was read ahead (`Ledger`). It goes on where a token is read, given back or
shifted; a shift adds to the course of the tree what it opens, and the token. Nothing else in a
round touches an account.

So the rounds are gone through once, for all ledgers.

Main results:

* `Ledger.finish_grown`, `Ledger.finish_root` — completing a frame, and the frame of the start rule.
* `Ledger.round_grows` — a round completes the innermost pattern, or reads a token more, or ends
  with the start rule complete and all of the input read.
* `Ledger.parse_grows` — a parse that returns has grown a derivation of its input, and the
  account is one of it.
-/

namespace GrammarEngine

namespace Parser

open Grammar Run

variable {g : Grammar (Action TokenQueue)} {kinds : List String} {table : Table}
  {start : Rule (Action TokenQueue)}
  {tokens : List Token} {marks : List (Mark TokenQueue)} {p p' : Parser TokenQueue}
  {K : List (Mark TokenQueue) → Option Token → Parser TokenQueue → Prop}

/-- An account of the tree with some course, perhaps with a token read ahead, that is kept in the
course of a parse. -/
structure Ledger (g : Grammar (Action TokenQueue)) (kinds : List String) (table : Table)
    (tokens : List Token)
    (K : List (Mark TokenQueue) → Option Token → Parser TokenQueue → Prop) : Prop where
  parsing {marks : List (Mark TokenQueue)} {ahead : Option Token} {p : Parser TokenQueue}
    (h : K marks ahead p) : Parsing g kinds table tokens (Mark.tokens marks ++ ahead.toList) p
  of_source {marks : List (Mark TokenQueue)} {ahead : Option Token} {p p' : Parser TokenQueue}
    (h : K marks ahead p) (hkept : Kept p p') (hsource : p'.source = p.source) : K marks ahead p'
  read {marks : List (Mark TokenQueue)} {p p' : Parser TokenQueue} {rounds : Nat} {token : Token}
    (h : K marks none p) (hnext : (nextToken rounds).Returns p token p') : K marks (some token) p'
  unread {marks : List (Mark TokenQueue)} {ahead : Option Token} {p p' : Parser TokenQueue}
    {u : Unit} (h : K marks ahead p) (hback : (giveBack ahead).Returns p u p') : K marks none p'
  shifted {marks : List (Mark TokenQueue)} {p p' : Parser TokenQueue} {site target : Site}
    {t : Transition} {token : Token} (h : K marks (some token) p)
      (hshift : (shift site t token).Returns p target p') :
    K (marks ++ ((p.opened token (entered site t)).map .opens ++ [.reads token])) none p'

theorem Ledger.setStack (hledger : Ledger g kinds table tokens K) {ahead : Option Token}
    (h : K marks ahead p)
    (stack : Option (List (Frame TokenQueue))) : K marks ahead { p with stack := stack } :=
  hledger.of_source h (.setStack p stack) rfl

-- ---------------------------------------------------------------------------
-- Completing frames
-- ---------------------------------------------------------------------------

/-- What the stack is after a frame of a rule was completed: an element more of the frame below is
filled, or the start rule has its instances. If the rule repeats, another instance may follow. -/
structure Closes (g : Grammar (Action TokenQueue)) (kinds : List String) (table : Table)
    (start r : Rule (Action TokenQueue)) (marks : List (Mark TokenQueue))
    (parent : Frame TokenQueue) (rest : List (Frame TokenQueue)) : Prop where
  again : r.repeatable = true →
    ∀ coming, Growing g kinds table start (parent :: rest) r marks coming
  filled : (rest = [] ∧ ∃ trees raw, Collected g kinds start trees raw ∧
    Tree.courseOf trees = marks ∧ parent.values = [raw]) ∨
      Grown g kinds table start (parent :: rest) marks

/-- The innermost frame is completed: the token goes back, and its pattern becomes an
instance of its rule. -/
theorem Ledger.finish_grown (hledger : Ledger g kinds table tokens K) (htable : TableOf g table)
    (hpure : g.Pure) {rounds : Nat} {token : Option Token} {done : Bool} {f : Frame TokenQueue}
    {below : List (Frame TokenQueue)} (hgrown : Grown g kinds table start (f :: below) marks)
    (hreducible : f.site.state.reducible = true) (hstack : p.stack = some (f :: below))
    (hK : K marks token p) (h : (finish rounds token).Returns p done p') :
    done = false ∧ K marks none p' ∧
      (∃ p₁, (giveBack token).Returns p () p₁ ∧ p'.source = p₁.source) ∧
      ∃ r parent rest, r ∈ g.rules ∧ f.site.state.key.rule = r.id ∧
        p'.stack = some (parent :: rest) ∧ (parent :: rest).length = below.length ∧
        Closes g kinds table start r marks parent rest := by
  obtain ⟨p₁, hback, ⟨root, _, hroot, -⟩ | ⟨frame, parent, rest, hframe, rfl, hreduce⟩⟩ :=
    finish_returns h
  · -- a frame that has grown is never the only one
    rw [hstack, Option.some.injEq, List.cons.injEq] at hroot
    exact absurd hroot.2 hgrown.below_ne_nil
  · rw [hstack, Option.some.injEq, List.cons.injEq] at hframe
    obtain ⟨rfl, rfl⟩ := hframe
    have hK₁ := hledger.unread hK hback
    obtain ⟨_, _, _, _, hseat⟩ := hgrown.exists_seat
    obtain ⟨-, values, v, p₂, parent', rest', hvalues, hcall, hstack', rfl⟩ :=
      reduce_returns hreduce
    obtain ⟨hv, hstack'', hsource, hkept⟩ := callAction_pure (hseat.pure hpure) hcall
    rw [hstack''] at hstack'
    obtain ⟨rfl, rfl⟩ := List.cons.inj (Option.some.inj hstack')
    obtain ⟨r, tree, front, first, values', rfl, htree, hr, hid, hgrowing, hvalues', hderives⟩ :=
      hgrown.complete htable hreducible
    have hgrammar : p₁.grammar = g := (hledger.parsing hK₁).grammar_eq
    simp only [hgrammar] at hvalues
    rw [hvalues'] at hvalues
    cases hvalues
    have hK₂ := hledger.of_source (hledger.setStack hK₁ _) hkept hsource
    have hrule : f.key.rule = r.id := hid
    refine ⟨rfl, hledger.setStack hK₂ _, ⟨p₁, hback, hsource⟩, r, _, rest, hr, hid, rfl, rfl, ?_⟩
    rw [hrule, repeats_of_mem (hledger.parsing hK₂).grammar_eq hr]
    obtain ⟨hagain, hfilled⟩ := hgrowing.insert (hderives v hv) htree f.first
    exact ⟨hagain, hfilled⟩

/-- The frame of the start rule is complete where the input ends. -/
theorem Ledger.finish_root (hledger : Ledger g kinds table tokens K)
    (htokens : ∀ t ∈ tokens, t.isEnd = false) {rounds : Nat} {token : Option Token} {done : Bool}
    {root : Frame TokenQueue} (hstack : p.stack = some [root])
    (hK : K marks token p) (h : (finish rounds token).Returns p done p') :
    done = true ∧ p'.stack = some [root] ∧ (∃ e, K marks (some e) p') ∧
      ∃ ends, (∀ e ∈ ends, e.isEnd = true) ∧ Mark.tokens marks = tokens ++ ends := by
  obtain ⟨p₁, hback, ⟨root', p₂, hroot, rfl, hend, rfl⟩ | ⟨_, _, _, hframe, -⟩⟩ := finish_returns h
  · rw [hstack, Option.some.injEq, List.cons.injEq] at hroot
    obtain ⟨rfl, -⟩ := hroot
    have hK₁ := hledger.setStack (hledger.unread hK hback) (some [])
    have hparse := hledger.parsing hK₁
    rw [Option.toList_none, List.append_nil] at hparse
    obtain ⟨e, -, hnext⟩ := expectEnd_returns hend
    exact ⟨rfl, rfl, ⟨e, hledger.setStack (hledger.read hK₁ hnext) _⟩, hparse.ended htokens hend⟩
  · rw [hstack] at hframe
    cases hframe

-- ---------------------------------------------------------------------------
-- Rounds
-- ---------------------------------------------------------------------------

/-- The tree when a round begins: nothing has been read yet, or a pattern is under way. -/
inductive Stage (g : Grammar (Action TokenQueue)) (kinds : List String) (table : Table)
    (start : Rule (Action TokenQueue)) : List (Frame TokenQueue) → List (Mark TokenQueue) → Prop
  | first {root : Frame TokenQueue}
      (hsite : Sits table root.site) (hkey : root.key = ⟨start.id, none, 0⟩)
      (hvalues : root.values = []) : Stage g kinds table start [root] []
  | later {frames : List (Frame TokenQueue)} {marks : List (Mark TokenQueue)}
      (h : Grown g kinds table start frames marks) : Stage g kinds table start frames marks

/-- No transition loops back before anything has been read. -/
theorem Stage.grown_of_loopBack (htable : TableOf g table) (hstart : start ∈ g.rules)
    {top : Frame TokenQueue} {below : List (Frame TokenQueue)}
    (h : Stage g kinds table start (top :: below) marks) {t : Transition}
    (hmem : t ∈ top.site.state.transitions) (hloop : t.loopBack = true) :
    Grown g kinds table start (top :: below) marks := by
  cases h with
  | later h => exact h
  | first hsite hkey _ =>
    rw [(way_of_entry htable hstart hsite hkey hmem).1] at hloop
    cases hloop

/-- A round begins at the state of the innermost frame, with an account of the tree so far. -/
def Unfolds (g : Grammar (Action TokenQueue)) (kinds : List String) (table : Table)
    (start : Rule (Action TokenQueue))
    (K : List (Mark TokenQueue) → Option Token → Parser TokenQueue → Prop)
    (marks : List (Mark TokenQueue)) (site : Site) (p : Parser TokenQueue) : Prop :=
  ∃ top below, p.stack = some (top :: below) ∧ site = top.site ∧
    Stage g kinds table start (top :: below) marks ∧ K marks none p

/-- The parse is over: some trees are a derivation of the input, and the account is one of them.
There is none if the start rule can match nothing and the input has no token. -/
def Unfolded (g : Grammar (Action TokenQueue)) (kinds : List String)
    (start : Rule (Action TokenQueue))
    (tokens : List Token) (K : List (Mark TokenQueue) → Option Token → Parser TokenQueue → Prop)
    (p : Parser TokenQueue) : Prop :=
  ∃ root trees ends, p.stack = some [root] ∧ (∀ e ∈ ends, e.isEnd = true) ∧
    Tree.leavesOf trees = tokens ++ ends ∧ ((root.values = [] ∧ g.Vanishing start ∧ trees = []) ∨
      ∃ raw, Collected g kinds start trees raw ∧ root.values = [raw]) ∧
    ∃ ahead, K (Tree.courseOf trees) ahead p

/-- The number of frames. -/
def height (p : Parser TokenQueue) : Nat := (p.stack.getD []).length

theorem height_of_stack {frames : List (Frame TokenQueue)} (h : p.stack = some frames) :
    p.height = frames.length := by
  rw [height, h, Option.getD_some]

/-- Where no transition leads on, patterns are completed. -/
def Settles (rounds : Nat) (site : Site) (p : Parser TokenQueue) : Prop :=
  site.state.transitions = [] ∨ ∃ token p₁, (nextToken rounds).Returns p token p₁ ∧
    site.state.transition? p₁.keywordKinds token = none

/-- What a round comes to that is not the last one: the innermost pattern is completed, or another
token is read. -/
inductive Proceeds (g : Grammar (Action TokenQueue)) (kinds : List String) (table : Table)
    (start : Rule (Action TokenQueue))
    (K : List (Mark TokenQueue) → Option Token → Parser TokenQueue → Prop)
    (marks : List (Mark TokenQueue)) (rounds : Nat) (site : Site) (p : Parser TokenQueue)
    (site' : Site) (p' : Parser TokenQueue) : Prop
  | completes (hunfolds : Unfolds g kinds table start K marks site' p')
      (hsettles : Settles rounds site p) (hheight : p'.height + 1 = p.height)
  | reads {openings : List (Opening TokenQueue)} {token : Token} {t : Transition}
    (hunfolds :
        Unfolds g kinds table start K (marks ++ (openings.map .opens ++ [.reads token])) site' p')
    (ht : t ∈ site.state.transitions) (hmatch : t.token.Matches kinds token)
      (hkey : site'.state.key = t.target) (hheight : p'.height ≤ p.height + t.skipped.length + 1)

/-- The tree goes on growing. -/
theorem Proceeds.unfolds {rounds : Nat} {site site' : Site}
    (h : Proceeds g kinds table start K marks rounds site p site' p') :
    ∃ marks', Unfolds g kinds table start K marks' site' p' := by
  cases h with
  | completes hunfolds | reads hunfolds => exact ⟨_, hunfolds⟩

theorem nextToken_stack {rounds : Nat} {token : Token} (h : (nextToken rounds).Returns p token p') :
    p'.stack = p.stack := by
  obtain ⟨_, _, -, -, rfl⟩ := nextToken_returns h
  rfl

/-- A shift leads to the target of its transition, and pushes at most one frame for each
state on the way. -/
theorem shift_reaches {site target : Site} {t : Transition} {token : Token}
    (h : (shift site t token).Returns p target p') :
    target.state.key = t.target ∧ p'.height ≤ p.height + t.skipped.length + 1 := by
  obtain ⟨htarget, -, top, rest, henter, hstack⟩ := shift_returns h
  refine ⟨(sits_of_follow? rfl htarget).2, ?_⟩
  have hlength := henter.length_le
  rw [List.length_append, List.length_singleton] at hlength
  rw [height_of_stack hstack]
  exact hlength

theorem renewed_of_sits {site : Site} (htable : p.table = table) (h : Sits table site) :
    p.renewed site = site := by
  unfold renewed
  rw [htable, h.found]
  obtain ⟨htable', -⟩ := h
  rw [← htable']

/-- Where a rule starts over, frames are pushed for another instance of it. -/
theorem Ledger.again_grows (hledger : Ledger g kinds table tokens K) {r : Rule (Action TokenQueue)}
    {parent : Frame TokenQueue} {rest : List (Frame TokenQueue)}
    (hcloses : Closes g kinds table start r marks parent rest) (hr : r ∈ g.rules)
    (hrepeat : r.repeatable = true) (hstack : p.stack = some (parent :: rest)) {site target : Site}
    (hsite : site.table = table) {t : Transition} (hloop : t.loopBack = true) {other : Nat}
    (hway : g.Way r other 0 t.skipped t.target t.token) {token : Token}
    (hmatch : t.token.Matches kinds token) (hK : K marks (some token) p)
    (h : (shift site t token).Returns p target p') :
    Unfolds g kinds table start K
      (marks ++ ((p.opened token (entered site t)).map .opens ++ [.reads token])) target p' := by
  obtain ⟨htarget, -, top, rest', henter, hstack'⟩ := shift_returns h
  rw [hstack, Option.getD_some, hloop, Bool.not_true, Bool.and_false] at henter
  refine ⟨_, rest', hstack', (henter.site_eq htarget).symm, .later ?_, hledger.shifted hK h⟩
  have hentered : entered site t = t.skipped ++ [t.target] := by
    unfold entered
    rw [hloop, Bool.not_true, Bool.and_false]
    rfl
  rw [hentered]
  cases henter with
  | fresh h =>
    exact (hcloses.again hrepeat _).pushes (hledger.parsing hK).grammar_eq hsite hmatch hr hway h

namespace Ledger

variable (hledger : Ledger g kinds table tokens K) (htable : TableOf g table)

include hledger htable

/-- A round that completes patterns comes to the head of the next one, or to the end. -/
theorem settle_grows (hpure : g.Pure) (hstart : start ∈ g.rules)
    (htokens : ∀ t ∈ tokens, t.isEnd = false)
    {rounds : Nat} {token : Option Token} {next : Site ⊕ Unit} {top : Frame TokenQueue}
    {below : List (Frame TokenQueue)} (hstack : p.stack = some (top :: below))
    (hstage : Stage g kinds table start (top :: below) marks) (hK : K marks token p)
    (h : (settle rounds top.site token).Returns p next p') :
    (∃ site,
      next = .inl site ∧ Unfolds g kinds table start K marks site p' ∧ p'.height = below.length) ∨
      (next = .inr () ∧ Unfolded g kinds start tokens K p') := by
  obtain ⟨hreducible, hsettle⟩ := settle_returns h
  cases hstage with
  | first hsite hkey hvalues =>
    rcases hsettle with ⟨hfinish, rfl⟩ | ⟨p₁, hfinish, -⟩
    · obtain ⟨-, hstack', ⟨e, hK'⟩, ends, hends, hleaves⟩ :=
        hledger.finish_root htokens hstack hK hfinish
      have hending := (htable.reducible _ hsite.mem).mp hreducible
      have hkey' : top.site.state.key = ⟨start.id, none, 0⟩ := hkey
      rw [hkey', ending_entry_iff hstart] at hending
      exact .inr ⟨rfl, top, [], ends, hstack', hends, hleaves, .inl ⟨hvalues, hending, rfl⟩,
        some e, hK'⟩
    · obtain ⟨hdone, -⟩ := hledger.finish_root htokens hstack hK hfinish
      cases hdone
  | later hgrown =>
    rcases hsettle with ⟨hfinish, rfl⟩ | ⟨p₁, hfinish, hgoes⟩
    · obtain ⟨hdone, -⟩ := hledger.finish_grown htable hpure hgrown hreducible hstack hK hfinish
      cases hdone
    · obtain ⟨-, hK₁, -, r, parent, rest, -, -, hstack₁, hlength, hcloses⟩ :=
        hledger.finish_grown htable hpure hgrown hreducible hstack hK hfinish
      rcases hgoes with ⟨root, hroot, hfinish', rfl⟩ | ⟨second, third, more, hmany, rfl, rfl⟩
      · -- only the frame of the start rule is left
        rw [hstack₁, Option.some.injEq, List.cons.injEq] at hroot
        obtain ⟨rfl, rfl⟩ := hroot
        rcases hcloses.filled with ⟨-, trees, raw, hcollected, rfl, hvalues⟩ | hgrown'
        · obtain ⟨-, hstack', ⟨e, hK'⟩, ends, hends, hleaves⟩ :=
            hledger.finish_root htokens hstack₁ hK₁ hfinish'
          exact .inr ⟨rfl, _, trees, ends, hstack', hends, hleaves, .inr ⟨raw, hcollected, hvalues⟩,
            some e, hK'⟩
        · exact absurd rfl hgrown'.below_ne_nil
      · have hheight := height_of_stack hstack₁
        rw [hstack₁, Option.some.injEq, List.cons.injEq] at hmany
        obtain ⟨rfl, rfl⟩ := hmany
        rcases hcloses.filled with ⟨hnil, -⟩ | hgrown'
        · cases hnil
        · exact .inl ⟨_, rfl, ⟨_, _, hstack₁, rfl, .later hgrown', hK₁⟩, hheight.trans hlength⟩

/-- A shift leads to the head of the next round. -/
theorem shift_grows (hstart : start ∈ g.rules) {token : Token} {t : Transition} {target : Site}
    {top : Frame TokenQueue} {below : List (Frame TokenQueue)}
    (hstack : p.stack = some (top :: below))
    (hstage : Stage g kinds table start (top :: below) marks) (hK : K marks (some token) p)
    (hmem : t ∈ top.site.state.transitions) (hmatch : t.token.Matches kinds token)
    (hloop : t.loopBack = false) (h : (shift top.site t token).Returns p target p') :
    Unfolds g kinds table start K (marks ++
      ((p.opened token (entered top.site t)).map .opens ++ [.reads token])) target p' := by
  obtain ⟨htarget, -, top', rest, henter, hstack'⟩ := shift_returns h
  have hgrammar := (hledger.parsing hK).grammar_eq
  rw [hstack, Option.getD_some] at henter
  refine ⟨_, rest, hstack', (henter.site_eq htarget).symm, .later ?_, hledger.shifted hK h⟩
  cases hstage with
  | first hsite hkey hvalues =>
    exact grown_of_entry htable hgrammar hmatch hstart hsite hkey hvalues hmem henter
  | later hgrown => exact hgrown.shift htable hgrammar hmatch hmem hloop henter

/-- Where a transition loops back, the innermost pattern is completed, the token is read again, and
the same transition is found and taken. -/
theorem loop_grows (hpure : g.Pure) {rounds : Nat} {token token' : Token} {t : Transition}
    {done : Bool} {next : Site ⊕ Unit} {top : Frame TokenQueue} {below : List (Frame TokenQueue)}
    {p₁ p₂ : Parser TokenQueue} (hgrown : Grown g kinds table start (top :: below) marks)
    (hstack : p.stack = some (top :: below)) (hK : K marks (some token) p)
    (ht : top.site.state.transition? kinds token = some t) (hloop : t.loopBack = true)
    (hfinish : (finish rounds (some token)).Returns p done p₁)
    (hnext : (nextToken rounds).Returns p₁ token' p₂)
    (hproceed : (proceed rounds (p₁.renewed top.site) token').Returns p₂ next p') :
    ∃ target, ∃ openings : List (Opening TokenQueue), next = .inl target ∧
      Unfolds g kinds table start K (marks ++ (openings.map .opens ++ [.reads token])) target p' ∧
      target.state.key = t.target ∧ p'.height ≤ below.length + t.skipped.length + 1 := by
  obtain ⟨hmem, hmatch⟩ := State.matches_of_transition? ht
  obtain ⟨_, _, _, _, hseat⟩ := hgrown.exists_seat
  have hsits := hseat.sits
  have hpath := (htable.path _ hsits.mem t).mp hmem
  obtain ⟨hending, r, hr, hid, hrepeat, other, hway⟩ := hpath.of_loopBack hloop
  have hreducible := (htable.reducible _ hsits.mem).mpr hending
  obtain ⟨rfl, hK₁, ⟨p₀, hback, hsource⟩, r₁, parent, rest, hr₁, hid₁, hstack₁, hlength, hcloses⟩ :=
    hledger.finish_grown htable hpure hgrown hreducible hstack hK hfinish
  obtain rfl := eq_of_id_eq hr₁ hr (hid₁.symm.trans hid.symm)
  obtain rfl := nextToken_of_giveBack hback hsource hnext
  have hK₂ := hledger.read hK₁ hnext
  have hstack₂ := (nextToken_stack hnext).trans hstack₁
  rw [renewed_of_sits (hledger.parsing hK₁).table_eq hsits] at hproceed
  rcases proceed_returns hproceed with ⟨t', target, ht', rfl, hshift⟩ | ⟨hnone, -⟩
  · rw [(hledger.parsing hK₂).kinds_eq, ht, Option.some.injEq] at ht'
    subst ht'
    have hunfolds :=
      hledger.again_grows hcloses hr hrepeat hstack₂ hsits.table_eq hloop hway hmatch hK₂ hshift
    obtain ⟨hkey, hheight⟩ := shift_reaches hshift
    rw [height_of_stack hstack₂, hlength] at hheight
    exact ⟨target, _, rfl, hunfolds, hkey, hheight⟩
  · rw [(hledger.parsing hK₂).kinds_eq, ht] at hnone
    cases hnone

/-- **One round.** A round that begins with the tree of what was read completes the
innermost pattern or reads another token, or it ends with the start rule complete and all
of the input read. -/
theorem round_grows (hpure : g.Pure) (hstart : start ∈ g.rules)
    (htokens : ∀ t ∈ tokens, t.isEnd = false) {rounds : Nat} {site : Site} {next : Site ⊕ Unit}
    (hunfolds : Unfolds g kinds table start K marks site p)
    (h : (round rounds site).Returns p next p') :
    (∃ site', next = .inl site' ∧ Proceeds g kinds table start K marks rounds site p site' p') ∨
      (next = .inr () ∧ Unfolded g kinds start tokens K p') := by
  obtain ⟨top, below, hstack, rfl, hstage, hK⟩ := hunfolds
  have hheight := height_of_stack hstack
  rw [List.length_cons] at hheight
  have hcompletes {rounds : Nat} {token : Option Token} {p₁ : Parser TokenQueue}
      (hstack₁ : p₁.stack = some (top :: below)) (hK₁ : K marks token p₁) (hsettles :
        Settles rounds top.site p) (hsettle : (settle rounds top.site token).Returns p₁ next p') :
      (∃ site',
        next = .inl site' ∧ Proceeds g kinds table start K marks rounds top.site p site' p') ∨
        (next = .inr () ∧ Unfolded g kinds start tokens K p') := by
    rcases hledger.settle_grows htable hpure hstart htokens hstack₁ hstage hK₁ hsettle with
      ⟨site', rfl, hunfolds', hheight'⟩ | hend
    · exact .inl ⟨site', rfl, .completes hunfolds' hsettles (by omega)⟩
    · exact .inr hend
  rcases round_returns h with ⟨hempty, hsettle⟩ | ⟨token, p₁, hnext, hgoes⟩
  · exact hcompletes hstack hK (.inl hempty) hsettle
  have hK₁ := hledger.read hK hnext
  have hstack₁ := (nextToken_stack hnext).trans hstack
  rcases hgoes with ⟨hnone, hsettle⟩ | ⟨t, ht, hshifts⟩
  · exact hcompletes hstack₁ hK₁ (.inr ⟨token, p₁, hnext, hnone⟩) hsettle
  rw [(hledger.parsing hK₁).kinds_eq] at ht
  obtain ⟨hmem, hmatch⟩ := State.matches_of_transition? ht
  rcases hshifts with ⟨target, hloop, rfl, hshift⟩ | ⟨done, token', p₂, p₃, hloop, hfinish,
    hnext', hproceed⟩
  · have hunfolds' := hledger.shift_grows htable hstart hstack₁ hstage hK₁ hmem hmatch hloop hshift
    obtain ⟨hkey, hheight'⟩ := shift_reaches hshift
    rw [height_of_stack hstack₁, List.length_cons] at hheight'
    exact .inl ⟨target, rfl, .reads hunfolds' hmem hmatch hkey (by omega)⟩
  · have hgrown := hstage.grown_of_loopBack htable hstart hmem hloop
    obtain ⟨target, openings, rfl, hunfolds', hkey, hheight'⟩ :=
      hledger.loop_grows htable hpure hgrown hstack₁ hK₁ ht hloop hfinish hnext' hproceed
    exact .inl ⟨target, rfl, .reads hunfolds' hmem hmatch hkey (by omega)⟩

end Ledger

-- ---------------------------------------------------------------------------
-- The whole parse
-- ---------------------------------------------------------------------------

/-- **A parse that returns a value** has grown a derivation of its input with that value, and the
account is one of it. -/
theorem Ledger.parse_grows {q : TokenQueue} {rule : String} {rounds : Nat} {v : Value}
    (hledger : Ledger g kinds table tokens K) (htable : TableOf g table) (hpure : g.Pure)
    (htokens : ∀ t ∈ tokens, t.isEnd = false) (hstale : p.isStale = false)
    (hK : K [] none { p with source := some q }) (h : (parse rounds rule q).Returns p v p') :
    ∃ trees ends ahead, (∀ e ∈ ends, e.isEnd = true) ∧ Tree.leavesOf trees = tokens ++ ends ∧
      g.Fills kinds ⟨.reference, rule⟩ trees v ∧ K (Tree.courseOf trees) ahead p' := by
  obtain rfl : p.grammar = g := (hledger.parsing hK).grammar_eq
  obtain rfl : p.table = table := (hledger.parsing hK).table_eq
  obtain ⟨r, p₁, state, root, below, hprepare, hstate, hiterate, hstack, rfl⟩ := parse_returns h
  obtain ⟨hfind, rfl⟩ := prepare_returns hstale hprepare
  have hr := mem_of_find?_eq_some hfind
  have hkey := Table.key_of_find?_eq_some hstate
  have hsits : Sits p.table ⟨p.table, state⟩ := ⟨rfl, by rw [hkey]; exact hstate⟩
  -- at first there is only the frame of the start rule, and nothing has been read
  have hinit : ∃ marks, Unfolds p.grammar kinds p.table r K marks ⟨p.table, state⟩
      { p with source := some q, stack := some [{ site := ⟨p.table, state⟩, action := none }] } :=
    ⟨[], _, [], rfl, rfl, .first hsits hkey rfl, hledger.setStack hK _⟩
  obtain ⟨site, p₁, ⟨marks, hunfolds⟩, hlast⟩ := hiterate.iterate_invariant
    (fun site p' => ∃ marks, Unfolds p.grammar kinds p.table r K marks site p') hinit
      fun c t c' t' hc hround => by
      obtain ⟨marks, hc⟩ := hc
      rcases hledger.round_grows htable hpure hr htokens hc hround
        with ⟨c'', heq, hproceeds⟩ | ⟨heq, -⟩
      · cases heq
        exact hproceeds.unfolds
      · cases heq
  rcases hledger.round_grows htable hpure hr htokens hunfolds hlast with
    ⟨_, heq, -⟩ | ⟨-, root', trees, ends, hroot, hends, hleaves, hvalue, ahead, hK'⟩
  · cases heq
  · rw [hstack, Option.some.injEq, List.cons.injEq] at hroot
    obtain ⟨rfl, rfl⟩ := hroot
    refine ⟨trees, ends, ahead, hends, hleaves, ?_, hK'⟩
    rw [List.getLast_singleton, repeats_of_mem (hledger.parsing hK').grammar_eq hr]
    rcases hvalue with ⟨hvalues, hvanishing, rfl⟩ | ⟨raw, hcollected, hvalues⟩
    · rw [hvalues]
      exact .missing rfl hfind hvanishing
    · rw [hvalues]
      exact hcollected.fills rfl hfind

end Parser

end GrammarEngine
