import GrammarEngine.Proofs.Parser.Discipline
import GrammarEngine.Proofs.Parser.Licence

/-!
# The table in use is the current one

An action may add to the grammar and bring the table up to date, at any time and as often as it
likes. The frames on the stack move to the new table then. The frame whose action is running is not
on the stack, and where its rule starts over, the parse still holds the state of it. That one is
looked up by its identity, and it is found if the new table has all places that the old one had:
patterns were only added.

So the table always belongs to a grammar that the present one extends (`Covered`), and all frames
stand in it (`Current`). Only an update replaces the table, and it leaves both true.

Main results:

* `perform_renews`, `finish_renews` — what actions leave, and completing a frame.
* `round_current` — what rounds leave.
* `lookups_current` — whatever state a parse looks up is one of the current table, and so are
  those of all frames.
-/

namespace GrammarEngine

open Run

variable {σ : Type}

-- ---------------------------------------------------------------------------
-- Grammars that were added to
-- ---------------------------------------------------------------------------

namespace Grammar

variable {α : Type} {g g' g'' : Grammar α} {r s : Rule α}

/-- `g.Extends g'`: all rules of `g'` are there, and have the patterns that they had, with others
behind them. Their marks and their documentation may be others. -/
def Extends (g g' : Grammar α) : Prop := ∀ r' ∈ g'.rules, ∃ r ∈ g.rules, r.Extends r'

/-- Every grammar extends itself. -/
theorem Extends.refl (g : Grammar α) : g.Extends g := fun r hr => ⟨r, hr, .refl r⟩

/-- Extending a grammar may be done in steps. -/
theorem Extends.trans (h : g.Extends g') (h' : g'.Extends g'') : g.Extends g'' := by
  intro r'' hr''
  obtain ⟨r', hr', hextends'⟩ := h' r'' hr''
  obtain ⟨r, hr, hextends⟩ := h r' hr'
  exact ⟨r, hr, hextends.trans hextends'⟩

/-- A state of a grammar is one of every grammar that extends it. -/
theorem Extends.place (h : g.Extends g') {k : Key} (hk : g'.Place k) : g.Place k := by
  cases hk with
  | entry hr =>
    obtain ⟨r, hr, hextends⟩ := h _ hr
    exact hextends.id_eq ▸ .entry hr
  | @inside _ pattern index p hr hp hi =>
    obtain ⟨r, hr, hextends⟩ := h _ hr
    obtain ⟨q, hq, hsame⟩ := hextends.getElem? hp
    exact hextends.id_eq ▸ .inside hr hq (Pattern.tokens_of_undocumented hsame ▸ hi)

/-- A rule may be put in that extends the one of its name, if there is one. -/
theorem extends_put (h : ∀ s ∈ g.rules, s.name = r.name → r.Extends s) : (g.put r).Extends g := by
  intro s hs
  by_cases hname : s.name = r.name
  · exact ⟨r, mem_put_iff.mpr (.inl rfl), h s hs hname⟩
  · exact ⟨s, mem_put_iff.mpr (.inr ⟨hs, hname⟩), .refl s⟩

end Grammar

/-- The licence of actions that add to the grammar but take nothing out of it. -/
def adding : Script.Licence σ where
  work _ := True
  drops := False
  fails _ := True

namespace Parser

open Grammar

variable {p p' p'' : Parser σ}

-- ---------------------------------------------------------------------------
-- Stacks that stand in the current table
-- ---------------------------------------------------------------------------

/-- The table was made from a grammar that the present one extends. -/
def Covered (p : Parser σ) : Prop := ∃ g, TableOf g p.table ∧ p.grammar.Extends g

/-- All frames stand in the current table. -/
structure Current (p : Parser σ) : Prop where
  covered : p.Covered
  frames : ∀ f ∈ p.stack.getD [], Sits p.table f.site

/-- If all frames stand in the current table they do so afterwards, and the table then has all
states that it had. -/
def Renews (p p' : Parser σ) : Prop :=
  p.Current → p'.Current ∧ ∀ k, (∃ s, p.table.find? k = some s) → ∃ s, p'.table.find? k = some s

/-- A parser that is left as it is stays current. -/
theorem Renews.refl (p : Parser σ) : Renews p p := fun h => ⟨h, fun _ hk => hk⟩

theorem Renews.trans (h : Renews p p') (h' : Renews p' p'') : Renews p p'' := by
  intro hp
  obtain ⟨hp', hkeys⟩ := h hp
  obtain ⟨hp'', hkeys'⟩ := h' hp'
  exact ⟨hp'', fun k hk => hkeys' k (hkeys k hk)⟩

/-- The grammar may be extended, and frames may change if they stay where they are. -/
theorem renews_of_extends (hgrammar : p'.grammar.Extends p.grammar) (htable : p'.table = p.table)
    (hstack : ∀ f' ∈ p'.stack.getD [], ∃ f ∈ p.stack.getD [], f'.site = f.site) : Renews p p' := by
  intro h
  obtain ⟨⟨g, hg, hextends⟩, hframes⟩ := h
  refine ⟨⟨⟨g, htable ▸ hg, hgrammar.trans hextends⟩, fun f' hf' => ?_⟩, fun k hk => htable ▸ hk⟩
  obtain ⟨f, hf, hsite⟩ := hstack f' hf'
  rw [hsite, htable]
  exact hframes f hf

/-- What neither grammar nor table nor stack depends on may change. -/
theorem renews_of_same (hgrammar : p'.grammar = p.grammar) (htable : p'.table = p.table)
    (hstack : p'.stack = p.stack) : Renews p p' :=
  renews_of_extends (hgrammar ▸ Extends.refl _) htable fun f hf => ⟨f, hstack ▸ hf, rfl⟩

/-- The source plays no part in being current. -/
theorem Current.setSource (h : p.Current) (source : Option σ) :
    Current { p with source := source } :=
  ⟨h.covered, h.frames⟩

/-- The site at the top sits in the current table. -/
theorem Current.site {site : Site} (h : p.Current) (htop : p.AtTop site) : Sits p.table site := by
  obtain ⟨f, below, hstack, rfl⟩ := htop
  refine h.frames f ?_
  rw [hstack]
  exact List.mem_cons_self

/-- Frames that are pushed sit in the table of the site. -/
theorem Pushes.sits {table : Table} {site : Site} {token : Token} {keys : List Key}
    {frames frames' : List (Frame σ)}
    (htable : site.table = table) (h : Pushes p site token keys frames frames')
    (hframes : ∀ f ∈ frames, Sits table f.site) : ∀ f ∈ frames', Sits table f.site := by
  induction h with
  | nil => exact hframes
  | cons hnext _ _ ih =>
    exact ih (List.forall_mem_cons.mpr ⟨(sits_of_follow? htable hnext).1, hframes⟩)

/-- So do the frames on the way through a route. -/
theorem Enters.sits {table : Table} {site : Site} {token : Token} {moves : Bool} {route : List Key}
    {frames frames' : List (Frame σ)} (htable : site.table = table)
    (h : Enters p site token moves route frames frames')
    (hframes : ∀ f ∈ frames, Sits table f.site) : ∀ f ∈ frames', Sits table f.site := by
  cases h with
  | fresh h => exact h.sits htable hframes
  | moves hnext h =>
    rw [List.forall_mem_cons] at hframes
    exact h.sits htable (List.forall_mem_cons.mpr ⟨(sits_of_follow? htable hnext).1, hframes.2⟩)

-- ---------------------------------------------------------------------------
-- Additions and updates
-- ---------------------------------------------------------------------------

/-- A rule is put back with more that was said about it. -/
theorem extends_putBack {r r' : Rule (Action σ)} (hr : p.rule? r.id = some r) (h : r'.Extends r) :
    (p.putBack r').grammar.Extends p.grammar := by
  unfold Parser.putBack
  split
  · next hsome =>
    obtain ⟨s, hs⟩ := Option.isSome_iff_exists.mp hsome
    have hs' : p.rule? r.id = some s := rule?_eq_of_byId? (h.id_eq ▸ hs)
    obtain rfl := Option.some.inj (hr.symm.trans hs')
    refine extends_put fun s hs' hname => ?_
    have hsame : r'.name = r.name := congrArg RuleId.name h.id_eq
    obtain rfl := eq_of_name_eq hs' (List.mem_of_find?_eq_some hs) (hname.trans hsame)
    exact h
  · exact .refl _

/-- An extended rule is put back with all its states. -/
theorem renews_putBack {r r' : Rule (Action σ)} (hr : p.rule? r.id = some r) (h : r'.Extends r) :
    Renews p (p.putBack r') := by
  refine renews_of_extends (extends_putBack hr h) ?_ ?_
  · unfold Parser.putBack
    split <;> rfl
  · rw [stack_putBack]
    exact fun f hf => ⟨f, hf, rfl⟩

/-- Saying more about a rule takes no state away. -/
theorem amend_renews {name : String} {clause : Clause (Action σ)} {u : Unit}
    (h : (amend name clause).Returns p u p') : Renews p p' := by
  obtain ⟨r, r', hr, happly, rfl⟩ := amend_returns h
  exact renews_putBack hr (Clause.apply_extends happly)

/-- A new rule brings states of its own. -/
theorem newRule_renews {name : String} {u : Unit}
    (h : (newRule name).Returns p u p') : Renews p p' := by
  obtain ⟨hfree, rfl⟩ := newRule_returns h
  refine renews_of_extends (extends_put fun s hs hname => ?_) rfl fun f hf => ⟨f, hf, rfl⟩
  -- no rule has the name yet
  have hfind := find?_of_mem hs
  rw [hname] at hfind
  exact nomatch hfree.symm.trans hfind

/-- Saying more about the rule being declared takes none away. -/
theorem declare_renews {clause : Clause (Action σ)} {u : Unit}
    (h : (declare clause).Returns p u p') : Renews p p' := by
  obtain ⟨r, r', stale, hr, happly, rfl⟩ := declare_returns h
  exact (renews_putBack hr (Clause.apply_extends happly)).trans (renews_of_same rfl rfl rfl)

/-- Neither does declaring a rule with all that is said about it. -/
theorem declareRule_renews {name : String} {clauses : List (Clause (Action σ))} {u : Unit}
    (h : (declareRule name clauses).Returns p u p') : Renews p p' :=
  declareRule_steps .refl Renews.trans newRule_renews declare_renews
    (fun _ _ => renews_of_same rfl rfl rfl) h

/-- Frames that have moved sit in the table they have moved to. -/
theorem sits_of_moved {table : Table} {frames frames' : List (Frame σ)}
    (h : List.Forall₂ (Moved table) frames frames') : ∀ f' ∈ frames', Sits table f'.site := by
  induction h with
  | nil => exact List.forall_mem_nil _
  | cons hmoved _ ih =>
    obtain ⟨state, hfind, rfl⟩ := hmoved
    exact List.forall_mem_cons.mpr
      ⟨⟨rfl, by rw [Table.key_of_find?_eq_some hfind]; exact hfind⟩, ih⟩

/-- The table is replaced by that of the grammar as it is, and all frames move there. -/
theorem updateTable_renews {u : Unit} (h : updateTable.Returns p u p') : Renews p p' := by
  obtain ⟨-, htable, ⟨memo, stack, hp'⟩, hmoved⟩ := updateTable_returns h
  have hgrammar : p'.grammar = p.grammar := by rw [hp']
  rintro ⟨⟨g, hg, hextends⟩, -⟩
  refine ⟨⟨⟨p.grammar, htable, hgrammar ▸ .refl _⟩, ?_⟩, fun k hk => ?_⟩
  · rcases hmoved with ⟨-, hnone⟩ | ⟨fs, fs', -, hfs', hmoved⟩
    · rw [hnone]
      exact List.forall_mem_nil _
    · rw [hfs']
      exact sits_of_moved hmoved
  · exact htable.exists_find?_iff.mpr (hextends.place (hg.exists_find?_iff.mp hk))

-- ---------------------------------------------------------------------------
-- Actions
-- ---------------------------------------------------------------------------

section Machine

variable [TokenSource σ]

/-- What shifting keeps is current as before. -/
theorem Kept.renews (h : Kept p p') (hstack : p'.stack = p.stack) : Renews p p' :=
  renews_of_same h.grammar h.table hstack

/-- **Actions** that take nothing out of the grammar leave a stack that stands in the
current table. -/
theorem perform_renews {script : Script σ} {v : Value} (hscript : script.Within adding)
    (h : (perform script).Returns p v p') : Renews p p' := by
  induction hscript generalizing p with
  | source _ _ ih =>
    obtain ⟨v', p₁, hwork, h⟩ := Run.returns_bind.mp h
    obtain ⟨s, s', -, -, rfl⟩ := onSource_returns.mp hwork
    refine .trans ?_ (ih v' h)
    exact renews_of_same rfl rfl rfl
  | here _ ih =>
    obtain ⟨q, p₁, hget, h⟩ := Run.returns_bind.mp h
    obtain ⟨rfl, rfl⟩ := Run.returns_get.mp hget
    exact ih _ h
  | slots _ ih =>
    obtain ⟨q, p₁, hget, h⟩ := Run.returns_bind.mp h
    obtain ⟨rfl, rfl⟩ := Run.returns_get.mp hget
    exact ih _ _ h
  | error => exact absurd h not_returns_error
  | warning id text position data _ ih =>
    obtain ⟨_, p₁, hreport, h⟩ := Run.returns_bind.mp h
    obtain ⟨hkept, hstack⟩ := warning_returns hreport
    exact (hkept.renews hstack).trans (ih h)
  | limit kinds _ ih =>
    obtain ⟨_, p₁, hlimit, h⟩ := Run.returns_bind.mp h
    obtain rfl := Run.returns_modify.mp hlimit
    refine .trans ?_ (ih h)
    exact renews_of_same rfl rfl rfl
  | amend rule _ _ _ ih =>
    obtain ⟨_, p₁, hamend, h⟩ := Run.returns_bind.mp h
    exact (amend_renews hamend).trans (ih h)
  | dropRule _ hdrops => exact hdrops.elim
  | declareRule rule _ _ _ ih =>
    obtain ⟨_, p₁, hdeclare, h⟩ := Run.returns_bind.mp h
    exact (declareRule_renews hdeclare).trans (ih h)
  | rebuild _ ih =>
    obtain ⟨_, p₁, hupdate, h⟩ := Run.returns_bind.mp h
    exact (updateTable_renews hupdate).trans (ih h)
  | fail => exact absurd h Run.not_returns_fail
  | done value =>
    obtain ⟨-, rfl⟩ := Run.returns_pure.mp h
    exact .refl p

/-- The frame whose action runs is not on the stack. The one below takes the value, wherever
it has moved. -/
theorem reduce_renews {frame : Frame σ} {u : Unit} (hframe : Action.Within adding frame.action)
    (h : (reduce frame).Returns p u p') : Renews p p' := by
  obtain ⟨-, values, result, p₁, parent, rest, -, hcall, hstack, rfl⟩ := reduce_returns h
  have hinsert : Renews p₁ { p₁ with
      stack := some (parent.insert parent.key.index result frame.first
        (p₁.repeats frame.key.rule frame.site.state.repeats) :: rest) } := by
    refine renews_of_extends (.refl _) rfl ?_
    rw [hstack]
    exact List.forall_mem_cons.mpr
      ⟨⟨parent, List.mem_cons_self, rfl⟩, fun f hf => ⟨f, List.mem_cons_of_mem _ hf, rfl⟩⟩
  refine Renews.trans ?_ hinsert
  obtain ⟨-, -, rfl⟩ | ⟨action, p₂, haction, hperform, rfl⟩ := callAction_returns hcall
  · exact .refl _
  · refine .trans (.trans ?_ (perform_renews (hframe action haction values) hperform)) ?_
    · exact renews_of_same rfl rfl rfl
    · exact renews_of_same rfl rfl rfl

/-- **Completing a frame** leaves all others in the current table. -/
theorem finish_renews {rounds : Nat} {token : Option Token} {done : Bool} (hp : p.Within adding)
    (h : (finish rounds token).Returns p done p') : Renews p p' := by
  obtain ⟨p₁, hback, hcases⟩ := finish_returns h
  obtain ⟨source, rfl⟩ := giveBack_eq hback
  obtain ⟨root, p₂, hstack, -, hend, rfl⟩ | ⟨f, parent, below, hstack, -, hreduce⟩ := hcases
  · obtain ⟨next, -, hnext⟩ := expectEnd_returns hend
    obtain ⟨s, s', -, -, rfl⟩ := nextToken_returns hnext
    exact renews_of_same rfl rfl hstack.symm
  · have hframe := hp.frames f (by rw [hstack]; exact List.mem_cons_self)
    refine .trans ?_ (reduce_renews hframe hreduce)
    refine renews_of_extends (.refl _) rfl fun f' hf' => ⟨f', ?_, rfl⟩
    rw [hstack]
    exact List.mem_cons_of_mem _ hf'

-- ---------------------------------------------------------------------------
-- Rounds
-- ---------------------------------------------------------------------------

/-- A shift from a state of the current table stays in that table. -/
theorem shift_current {site target : Site} {t : Transition} {token : Token} (hcurrent : p.Current)
    (hsite : Sits p.table site) (h : (shift site t token).Returns p target p') :
    p'.Current ∧ p'.AtTop target := by
  obtain ⟨hfollow, hkept, top, rest, henters, hstack⟩ := shift_returns h
  obtain ⟨g, hg, hextends⟩ := hcurrent.covered
  refine ⟨⟨⟨g, hkept.table ▸ hg, hkept.grammar ▸ hextends⟩, ?_⟩, _, rest, hstack,
    (henters.site_eq hfollow).symm⟩
  have hframes := henters.sits hsite.table_eq hcurrent.frames
  rw [hstack, hkept.table, Option.getD_some]
  rw [List.forall_mem_cons] at hframes ⊢
  exact hframes

/-- At the second look the state of the pattern that was completed is looked at in the
current table. -/
theorem LooksAgain.current {rounds : Nat} {site again : Site} {token : Token} (hp : p.Within adding)
    (hcurrent : p.Current) (htop : p.AtTop site) (h : LooksAgain rounds p site again token p') :
    p'.Within adding ∧ p'.Current ∧ Sits p'.table again := by
  have hsite := hcurrent.site htop
  obtain ⟨hfirst, -, -, hfinish, hnext⟩ := h
  obtain ⟨source, rfl⟩ := nextToken_eq hfirst
  obtain ⟨source', rfl⟩ := nextToken_eq hnext
  obtain ⟨hcurrent', hkeys⟩ :=
    finish_renews (hp.setSource source) hfinish (hcurrent.setSource source)
  refine ⟨((hp.setSource source).finish hfinish).setSource source', hcurrent'.setSource source', ?_⟩
  obtain ⟨state, hstate⟩ := hkeys site.state.key ⟨_, hsite.found⟩
  unfold renewed
  rw [hstate]
  exact ⟨rfl, by rw [Table.key_of_find?_eq_some hstate]; exact hstate⟩

/-- **Rounds** leave all frames in the current table, and the parse at the state of the
innermost one. -/
theorem round_current {rounds : Nat} {site site' : Site}
    (hp : p.Within adding) (hcurrent : p.Current) (htop : p.AtTop site)
    (h : (round rounds site).Returns p (.inl site') p') : p'.Current ∧ p'.AtTop site' := by
  have hsettle {p : Parser σ} {site : Site} {token : Option Token} (hp : p.Within adding)
      (hcurrent : p.Current) (h : (settle rounds site token).Returns p (.inl site') p') :
        p'.Current ∧ p'.AtTop site' := by
    obtain ⟨-, hfinish, htop'⟩ := settle_goes_on h
    exact ⟨(finish_renews hp hfinish hcurrent).1, htop'⟩
  obtain ⟨-, hsettled⟩ | ⟨token, p₁, htoken, hcases⟩ := round_returns h
  · exact hsettle hp hcurrent hsettled
  · obtain ⟨source, hp₁⟩ := nextToken_eq htoken
    have hwithin₁ : p₁.Within adding := hp₁ ▸ hp.setSource source
    have hcurrent₁ : p₁.Current := hp₁ ▸ hcurrent.setSource source
    have hsite : Sits p₁.table site := hp₁ ▸ hcurrent.site htop
    obtain ⟨-, hsettled⟩ | ⟨t, ht, ⟨target, -, hnext, hshift⟩ |
        ⟨done, token', p₂, p₃, hloop, hfinish, hnext, hproceed⟩⟩ := hcases
    · exact hsettle hwithin₁ hcurrent₁ hsettled
    · obtain rfl := Sum.inl.inj hnext
      exact shift_current hcurrent₁ hsite hshift
    · have hlook : LooksAgain rounds p site _ token' p₃ := .intro htoken ht hloop hfinish hnext
      obtain ⟨hwithin₃, hcurrent₃, hagain⟩ := hlook.current hp hcurrent htop
      obtain ⟨t', target, -, htarget, hshift⟩ | ⟨-, hsettled⟩ := proceed_returns hproceed
      · obtain rfl := Sum.inl.inj htarget
        exact shift_current hcurrent₃ hagain hshift
      · exact hsettle hwithin₃ hcurrent₃ hsettled

-- ---------------------------------------------------------------------------
-- The whole parse
-- ---------------------------------------------------------------------------

/-- The heads of the rounds of a parse. It begins at the entry of its rule, with the table that it
was prepared with. -/
inductive Heads (p₀ : Parser σ) (rounds : Nat) (rule : String) (source : σ) : Site → Parser σ → Prop
  | start {p : Parser σ} {r : Rule (Action σ)} {state : State}
      (hprepare : (prepare rule).Returns p₀ r p)
      (hstate : p.table.find? ⟨r.id, none, 0⟩ = some state) :
      Heads p₀ rounds rule source ⟨p.table, state⟩
        { p with
          source := some source, stack := some [{ site := ⟨p.table, state⟩, action := none }] }
  | next {p p' : Parser σ} {site site' : Site} (h : Heads p₀ rounds rule source site p)
      (hround : (round rounds site).Returns p (.inl site') p') :
      Heads p₀ rounds rule source site' p'

/-- A parse that returns is one of these: its last round begins at such a head. -/
theorem heads_of_parse {p₀ : Parser σ} {rounds : Nat} {rule : String} {source : σ} {v : Value}
    (h : (parse rounds rule source).Returns p₀ v p') :
    ∃ site p, Heads p₀ rounds rule source site p ∧ (round rounds site).Returns p (.inr ()) p' := by
  obtain ⟨r, p₁, state, root, below, hprepare, hstate, hiterate, -⟩ := parse_returns h
  exact hiterate.iterate_invariant (fun site p => Heads p₀ rounds rule source site p)
    (.start hprepare hstate) fun _ _ _ _ h hround => h.next hround

/-- The lookups of a round, each with the state looked up, the token, and the parser at that
moment: one with the token that comes first, and where that starts the rule over, one with the
token that comes then. -/
inductive LooksUp (rounds : Nat) (p : Parser σ) (site : Site) : Site → Token → Parser σ → Prop
  | first {token : Token} {p' : Parser σ} (hne : site.state.transitions ≠ [])
      (hnext : (nextToken rounds).Returns p token p') : LooksUp rounds p site site token p'
  | again {looked : Site} {token : Token} {p' : Parser σ}
      (h : LooksAgain rounds p site looked token p') : LooksUp rounds p site looked token p'

/-- A frame in another table, and otherwise as it was. -/
structure Unmoved (f f' : Frame σ) : Prop where
  key : f'.key = f.key
  action : f'.action = f.action
  values : f'.values = f.values
  positions : f'.positions = f.positions
  first : f'.first = f.first

omit [TokenSource σ] in
/-- A frame that has moved to another table is the same otherwise. -/
theorem Moved.unmoved {table : Table} {f f' : Frame σ} (h : Moved table f f') : Unmoved f f' := by
  obtain ⟨state, hfind, rfl⟩ := h
  exact ⟨Table.key_of_find?_eq_some hfind, rfl, rfl, rfl, rfl⟩

omit [TokenSource σ] in
/-- A parse is prepared with a table that is taken for current, or with a new one. -/
theorem prepare_current {rule : String} {r : Rule (Action σ)}
    (hcovered : p.isStale = false → p.Covered) (h : (prepare rule).Returns p r p') :
    p'.Covered ∧ p'.grammar.rules ++ p'.former = p.grammar.rules ++ p.former := by
  unfold prepare at h
  obtain ⟨q, p₀, hget, h⟩ := Run.returns_bind.mp h
  obtain ⟨rfl, rfl⟩ := Run.returns_get.mp hget
  split at h
  · exact absurd h Run.not_returns_refuse
  · dsimp only at h
    split at h
    · obtain ⟨_, p₁, hupdate, h⟩ := Run.returns_bind.mp h
      obtain ⟨-, rfl⟩ := Run.returns_pure.mp h
      obtain ⟨-, htable, ⟨memo, stack, hp'⟩, -⟩ := updateTable_returns hupdate
      have hgrammar : p₁.grammar = p.grammar := by rw [hp']
      have hformer : p₁.former = p.former := by rw [hp']
      exact ⟨⟨p.grammar, htable, hgrammar ▸ .refl _⟩, by rw [hgrammar, hformer]⟩
    · next hfresh =>
      obtain ⟨-, rfl⟩ := Run.returns_pure.mp h
      exact ⟨hcovered (by simpa using hfresh), rfl⟩

/-- At the heads of all rounds the frames stand in the current table. -/
theorem Heads.current {p₀ : Parser σ} {rounds : Nat} {rule : String} {source : σ} {site : Site}
    (hactions : ∀ r ∈ p₀.grammar.rules ++ p₀.former, ∀ q ∈ r.patterns,
      Action.Within adding q.action)
    (hcovered : p₀.isStale = false → p₀.Covered) (h : Heads p₀ rounds rule source site p) :
    p.Within adding ∧ p.Current ∧ p.AtTop site := by
  induction h with
  | @start p r state hprepare hstate =>
    obtain ⟨hcovered', hrules⟩ := prepare_current hcovered hprepare
    refine ⟨⟨?_, ?_⟩, ⟨hcovered', ?_⟩, _, [], rfl, rfl⟩
    · exact fun r hr => hactions r (hrules ▸ hr)
    · exact fun f hf => (List.mem_singleton.mp hf) ▸ Action.within_none
    · intro f hf
      rw [List.mem_singleton.mp hf]
      exact ⟨rfl, by rw [Table.key_of_find?_eq_some hstate]; exact hstate⟩
  | next _ hround ih =>
    obtain ⟨hwithin, hcurrent, htop⟩ := ih
    obtain ⟨hcurrent', htop'⟩ := round_current hwithin hcurrent htop hround
    exact ⟨hwithin.round hround, hcurrent', htop'⟩

/--
**Lookups.** Let the actions of a parser add rules and patterns to its grammar and bring the table
up to date, whenever and as often as they like, and let its table be stale or made from a grammar
that was only added to since.

- Whatever state a parse looks a token up in, at the first look or the second, it is the entry of
  the current table under its own key, and so are the states of all frames on the stack.
- Bringing the table up to date makes it that of the grammar as it is, and leaves the frames as they
  were: their keys, actions, values and positions.
-/
theorem lookups_current {p₀ : Parser σ} {rounds : Nat} {rule : String} {source : σ}
    (hactions : ∀ r ∈ p₀.grammar.rules ++ p₀.former,
      ∀ q ∈ r.patterns, Action.Within adding q.action)
    (hcovered : p₀.isStale = false → p₀.Covered) :
    (∀ site p, Heads p₀ rounds rule source site p →
      ∀ looked token p', LooksUp rounds p site looked token p' →
      Sits p'.table looked ∧ ∀ f ∈ p'.stack.getD [], Sits p'.table f.site) ∧
    ∀ p p' : Parser σ, updateTable.Returns p () p' →
      TableOf p.grammar p'.table ∧ List.Forall₂ Unmoved (p.stack.getD []) (p'.stack.getD []) := by
  refine ⟨fun site p hheads looked token p' hlooks => ?_, fun p p' hupdate => ?_⟩
  · obtain ⟨hwithin, hcurrent, htop⟩ := hheads.current hactions hcovered
    cases hlooks with
    | first _ hnext =>
      obtain ⟨source', rfl⟩ := nextToken_eq hnext
      exact ⟨hcurrent.site htop, hcurrent.frames⟩
    | again hlook =>
      obtain ⟨-, hcurrent', hlooked⟩ := hlook.current hwithin hcurrent htop
      exact ⟨hlooked, hcurrent'.frames⟩
  · obtain ⟨-, htable, -, hmoved⟩ := updateTable_returns hupdate
    refine ⟨htable, ?_⟩
    rcases hmoved with ⟨hnone, hnone'⟩ | ⟨fs, fs', hfs, hfs', hmoved⟩
    · rw [hnone, hnone']
      exact .nil
    · rw [hfs, hfs']
      exact hmoved.imp fun f f' => Moved.unmoved

end Machine

-- Statements of a file, one of which defines keywords for the others.

/-- An action that adds a pattern with the word it was given, and rebuilds the tables. -/
private def definition : Action TokenQueue
  | [_, .text word, _] =>
    .amend "custom" (.pattern [.direct ⟨.literal, word⟩] (some (Action.tagged "custom")))
      (.rebuild (.done .nothing))
  | _ => .done .nothing

/-- A file of statements, one of which extends the grammar. -/
private def extensible : Parser TokenQueue where
  grammar :=
    { rules :=
        [{ id := ⟨"file", 0⟩
           patterns := [.ofTokens [⟨.reference, "statements"⟩, .atEnd] (some (Action.element 0))] },
          { id := ⟨"statements", 1⟩
            patterns :=
              [.ofTokens [⟨.literal, "define"⟩, ⟨.category, "ID"⟩, ⟨.literal, ";"⟩]
                (some definition),
               .ofTokens [⟨.literal, "use"⟩, ⟨.reference, "custom"⟩, ⟨.literal, ";"⟩]
                (some (Action.tagged "used"))]
            markedOptional := true
            repeatable := true },
          { id := ⟨"custom", 2⟩
            patterns := [.ofTokens [⟨.literal, "never"⟩] (some (Action.tagged "custom"))] }]
      distinct := by decide }
  declared := 3
  stamped := by decide

/-- A definition, and a use of what it defines. -/
private def defineAndUse : TokenQueue :=
  .ofTokens "statements"
    [("ID", .text "define", none), ("ID", .text "foo", none), ("LITERAL", .text ";", none),
      ("ID", .text "use", none), ("ID", .text "foo", none), ("LITERAL", .text ";", none)]

/-- All that the actions do is to add to the grammar. -/
private theorem actions_extensible :
    ∀ r ∈ extensible.grammar.rules ++ extensible.former, ∀ q ∈ r.patterns,
    Action.Within adding q.action := by
  have htagged (tag : String) : Action.Within adding
      (some (Action.tagged (σ := TokenQueue) tag)) := by
    rintro _ ⟨⟩ values
    exact .done _
  have hdefinition : Action.Within adding (some definition) := by
    rintro _ ⟨⟩ values
    unfold definition
    split
    · refine .amend _ ?_ (.rebuild (.done _))
      exact htagged "custom"
    · exact .done _
  have helement : Action.Within adding (some (Action.element (σ := TokenQueue) 0)) := by
    rintro _ ⟨⟩ values
    unfold Action.element
    split
    · exact .done _
    · exact .fail trivial
  intro r hr q hq
  simp only [extensible, List.append_nil, List.mem_cons, List.not_mem_nil, or_false] at hr
  rcases hr with rfl | rfl | rfl <;>
    simp only [List.mem_cons, List.not_mem_nil, or_false] at hq
  · exact hq ▸ helement
  · rcases hq with rfl | rfl
    · exact hdefinition
    · exact htagged "used"
  · exact hq ▸ htagged "custom"

/-- The parser with its tables. -/
private def preparedFile : Parser TokenQueue := ((prepare "file").run extensible).state

/-- Where a parse begins. -/
private def fileEntry : Site :=
  ⟨preparedFile.table, (preparedFile.table.find? ⟨⟨"file", 0⟩, none, 0⟩).getD default⟩

/-- The head of a round, after some of them. -/
private def headAfter : Nat → Site × Parser TokenQueue
  | 0 =>
    (fileEntry,
      { preparedFile with
        source := some defineAndUse, stack := some [{ site := fileEntry, action := none }] })
  | n + 1 =>
    let (site, p) := headAfter n
    let o := (round 20 site).run p
    (o.result.toOption.elim site (·.elim id fun _ => site), o.state)

/-- The definition is complete, and the next statement begins. -/
private def readUse : Parser TokenQueue := ((nextToken 20).run (headAfter 3).2).state

/-- The token that uses the definition. -/
private def use : Token := ⟨"ID", .text "use", some (TokenQueue.place "statements" 3)⟩

/-- The parser once the definition was reduced. -/
private def defined : Parser TokenQueue := ((finish 20 (some use)).run readUse).state

/-- The token is read again. -/
private def rereadUse : Parser TokenQueue := ((nextToken 20).run defined).state

/-- After three rounds the parser stands in front of the use. -/
private theorem heads_headAfter :
    Heads extensible 20 "file" defineAndUse (headAfter 3).1 (headAfter 3).2 := by
  have hid : ((prepare "file").run extensible).result.toOption.map (·.id) = some ⟨"file", 0⟩ := by
    decide +kernel
  obtain ⟨r, hprepare, hid⟩ := Option.map_eq_some_iff.mp hid
  have hstart : Heads extensible 20 "file" defineAndUse (headAfter 0).1 (headAfter 0).2 :=
    .start (Run.returns_of_result hprepare) (by rw [hid]; decide +kernel)
  have hround (n : Nat) (h : ((round 20 (headAfter n).1).run (headAfter n).2).result.toOption =
      some (.inl (headAfter (n + 1)).1)) :
      (round 20 (headAfter n).1).Returns (headAfter n).2 (.inl (headAfter (n + 1)).1)
        (headAfter (n + 1)).2 :=
    Run.returns_of_result h
  exact ((hstart.next (hround 0 (by decide +kernel))).next (hround 1 (by decide +kernel))).next
    (hround 2 (by decide +kernel))

/-- In that round the parser looks at the token a second time. -/
private theorem looksAgain_use :
    LooksAgain 20 (headAfter 3).2 (headAfter 3).1 (defined.renewed (headAfter 3).1) use
    rereadUse := by
  have hlook : ((headAfter 3).1.state.transition? readUse.keywordKinds use).map (·.loopBack) =
      some true := by
    decide +kernel
  obtain ⟨t, ht, hloop⟩ := Option.map_eq_some_iff.mp hlook
  have hfinish : (finish 20 (some use)).Returns readUse false defined :=
    Run.returns_of_result (by decide +kernel)
  exact .intro (Run.returns_of_result (by decide +kernel)) ht hloop hfinish
    (Run.returns_of_result (by decide +kernel))

/-- What is defined in one statement is looked up in the next one, in the table that was
made in between. -/
theorem lookups_current_use :
    (Sits rereadUse.table (defined.renewed (headAfter 3).1) ∧
      ∀ f ∈ rereadUse.stack.getD [], Sits rereadUse.table f.site) ∧
    ((rereadUse.table.find? ⟨⟨"custom", 2⟩, none, 0⟩).elim false fun s =>
      (s.find? ⟨.literal, "foo"⟩).isSome) = true ∧
    ((readUse.table.find? ⟨⟨"custom", 2⟩, none, 0⟩).elim true fun s =>
      (s.find? ⟨.literal, "foo"⟩).isSome) = false := by
  refine ⟨(lookups_current actions_extensible nofun).1 _ _ heads_headAfter _ _ _
    (.again looksAgain_use), ?_⟩
  decide +kernel

end Parser

end GrammarEngine
