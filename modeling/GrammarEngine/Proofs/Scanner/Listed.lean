import GrammarEngine.Proofs.Scanner.Nesting
import GrammarEngine.Proofs.Scanner.Regime

/-!
# Which macros a message lists

A message lists the macros that a scanner takes to be open, the innermost first. Before each
token the scanner tidies that list: it forgets macros from the front for as long as their texts
end at the cursor or before it. So a macro whose text is over may still be listed, but only below
one whose text goes on.

The ends of the listed texts are in order as long as every call that is replaced lies in all of
them. But a call may begin in the text of a macro and go on behind it. And a call inside a token,
or right behind it, may stand behind the text of a macro that has been called in the same token.
Then that text has been overrun, and it stays on the list below the text of the call, which ends
behind it. The module follows each listed macro from the moment when its text is put into the
line (`Account`).

Main results:

* `Account.ordered` — a text that has not been overrun ends no sooner than those put in after it.
* `Account.lt_stop_iff` — replacing a call leaves the list exact if and only if the call lies in
  all texts listed.
* `blames_scanAtCursor` — which errors a scan finds, and that they list the macros that were
  listed when it began.
* `listed_open` — each macro listed is open, unless it has been overrun, and a text that is
  overrun stays too long.
* `listed_over_siblings` — a macro whose text is over is listed in a message.
-/

namespace GrammarEngine

-- ---------------------------------------------------------------------------
-- What has become of the listed macros
-- ---------------------------------------------------------------------------

/-- A listed macro: where its text ends by now, and whether since it was put in some text has been
replaced that reached behind that end. -/
structure Listed where
  stop : Int
  overrun : Bool

/-- A listed macro once the `length` characters from a place on have been replaced. -/
def Listed.replace (start length : Nat) (growth : Int) (e : Listed) : Listed :=
  ⟨Stream.endAfter start growth e.stop,
    e.overrun || decide (e.stop < ((start + length : Nat) : Int))⟩

/-- The macro that is listed for a text put in at a place. An empty text is over at once, and
is not listed. -/
def newListed (start : Nat) (text : List Char) : List Listed :=
  if text = [] then [] else [⟨((start + text.length : Nat) : Int), false⟩]

namespace Stream

variable {s s' s₂ : Stream} {listed : List Listed} {c : Cursor} {start length : Nat}
  {more text : List Char}

/-- How the listed macros of a stream have fared since their texts were put into the
current line. -/
inductive Account : Stream → List Listed → Prop
  /-- No line has been read. -/
  | unread {s : Stream} (hcursor : s.cursor = none) (hends : s.ends = []) : Account s []
  /-- The next line has been read. -/
  | line (s : Stream) : Account s.atNextLine []
  /-- The cursor has moved, and perhaps the line goes on with some more text. -/
  | moved {s s' : Stream} {listed : List Listed} {c : Cursor} {pos : Nat} {more : List Char}
      (h : Account s listed)
      (hc : s.cursor = some c) (hlonger : s.Longer s' (c.seek pos) more) : Account s' listed
  /-- The list has been tidied. -/
  | cleaned {s : Stream} {listed : List Listed} (h : Account s listed) :
      Account s.cleanup (listed.dropWhile (·.stop ≤ (s.pos : Int)))
  /-- The last line is done. -/
  | ended {s : Stream} {listed : List Listed} (h : Account s listed) :
      Account { s with cursor := none } listed
  /-- A routine has replaced some text in front of the cursor. -/
  | injected {s : Stream} {listed : List Listed} {c : Cursor}
      (h : Account s listed) (hc : s.cursor = some c) (text : List Char) (length : Nat) :
      Account (s.replaced c text length)
        (listed.map (.replace (c.pos - length) length (text.length - length)))
  /-- A call has been replaced. -/
  | replaced {s s' : Stream} {listed : List Listed} {c : Cursor} {start length : Nat}
      {more text : List Char} (h : Account s listed) (hc : s.cursor = some c)
      (hrewritten : s.Rewritten s' c start length more text) :
      Account s' (newListed start text ++ listed.map (.replace start length (text.length - length)))

/-- However a line has come about, there is an account of its macros. -/
theorem History.accounted {anchor : Anchor} {past : List Expanded} (h : s.History anchor past) :
    ∃ listed, s.Account listed := by
  induction h with
  | unread hcursor hends => exact ⟨[], .unread hcursor hends⟩
  | line s => exact ⟨[], .line s⟩
  | moved h hc hlonger ih =>
    obtain ⟨listed, haccount⟩ := ih
    exact ⟨listed, .moved haccount hc hlonger⟩
  | cleaned h ih =>
    obtain ⟨listed, haccount⟩ := ih
    exact ⟨_, .cleaned haccount⟩
  | ended h ih =>
    obtain ⟨listed, haccount⟩ := ih
    exact ⟨listed, .ended haccount⟩
  | injected h hc text length ih =>
    obtain ⟨listed, haccount⟩ := ih
    exact ⟨_, .injected haccount hc text length⟩
  | replaced h hc hrewritten ih =>
    obtain ⟨listed, haccount⟩ := ih
    exact ⟨_, .replaced (.cleaned haccount) hc hrewritten⟩

/-- The ends of the listed macros go where the ends of the expansions go. -/
theorem map_stop_replace (start length : Nat) (growth : Int) (listed : List Listed) :
    (listed.map (Listed.replace start length growth)).map Listed.stop =
      (listed.map Listed.stop).map (endAfter start growth) := by
  rw [List.map_map, List.map_map]
  rfl

/-- An account tells of the macros on the list, one by one. -/
theorem Account.ends (h : s.Account listed) : listed.map Listed.stop = s.ends := by
  induction h with
  | unread hcursor hends => exact hends.symm
  | line s => rfl
  | moved h hc hlonger ih =>
    exact ih.trans (congrArg (List.map Expansion.stop) hlonger.expansions).symm
  | cleaned h ih =>
    rw [ends_cleanup, ← ih, List.dropWhile_map]
    rfl
  | ended h ih => exact ih
  | injected h hc text length ih => rw [ends_replaced, ← ih, map_stop_replace]
  | @replaced s s' listed c start length more text h hc hrewritten ih =>
    have hnew : (newListed start text).map Listed.stop = newEnds start text := by
      unfold newListed newEnds
      split <;> rfl
    rw [hrewritten.ends, ← ih, List.map_append, hnew, map_stop_replace]

-- ---------------------------------------------------------------------------
-- The order of the ends
-- ---------------------------------------------------------------------------

/-- Texts end in the order in which they were put in, the latest first, as far as they have not
been overrun. -/
def InOrder (listed : List Listed) : Prop :=
  listed.Pairwise fun inner outer => outer.overrun = false → inner.stop ≤ outer.stop

/-- Two ends stay in order if what is replaced does not reach behind the later one. -/
theorem endAfter_mono {inner outer : Int} (start length count : Nat) (h : inner ≤ outer)
    (hwithin : ((start + length : Nat) : Int) ≤ outer) :
    endAfter start (count - length) inner ≤ endAfter start (count - length) outer := by
  unfold endAfter
  split <;> split <;> omega

/-- A text that is put in ends no later than the text around it. -/
theorem le_endAfter {outer : Int} (start : Nat) {length : Nat} (count : Nat) (hlength : 0 < length)
    (hwithin : ((start + length : Nat) : Int) ≤ outer) :
    ((start + count : Nat) : Int) ≤ endAfter start (count - length) outer := by
  unfold endAfter
  rw [if_pos (by omega)]
  omega

/-- Replacing text keeps the ends in order, but for those that it overruns. -/
theorem InOrder.replace (h : InOrder listed) (start length count : Nat) :
    InOrder (listed.map (.replace start length (count - length))) := by
  refine List.pairwise_map.mpr (h.imp fun {inner outer} hle hclear => ?_)
  obtain ⟨hclear, hwithin⟩ := Bool.or_eq_false_iff.mp hclear
  exact endAfter_mono start length count (hle hclear) (not_lt.mp (of_decide_eq_false hwithin))

/-- **The listed texts are in order**, as far as they have not been overrun. -/
theorem Account.ordered (h : s.Account listed) : InOrder listed := by
  induction h with
  | unread hcursor hends => exact .nil
  | line s => exact .nil
  | moved h hc hlonger ih => exact ih
  | cleaned h ih => exact List.Pairwise.sublist (List.dropWhile_sublist _) ih
  | ended h ih => exact ih
  | injected h hc text length ih => exact ih.replace _ length text.length
  | @replaced s s' listed c start length more text h hc hrewritten ih =>
    have hbelow := ih.replace start length text.length
    unfold newListed
    split
    · exact hbelow
    · refine List.pairwise_cons.mpr ⟨fun outer houter hclear => ?_, hbelow⟩
      obtain ⟨before, -, rfl⟩ := List.mem_map.mp houter
      obtain ⟨-, hwithin⟩ := Bool.or_eq_false_iff.mp hclear
      exact le_endAfter start text.length hrewritten.length_pos
        (not_lt.mp (of_decide_eq_false hwithin))

/-- Of a list that has been tidied the first text goes on behind the cursor. -/
theorem lt_head_dropWhile (ends : List Int) (pos : Int) :
    ∀ stop ∈ (ends.dropWhile (· ≤ pos)).head?, pos < stop := by
  intro stop hstop
  have hne : ends.dropWhile (· ≤ pos) ≠ [] := by
    intro hnil
    rw [hnil] at hstop
    cases hstop
  have hnot := List.head_dropWhile_not (fun stop : Int => decide (stop ≤ pos)) (l := ends) hne
  rw [List.head?_eq_some_head hne, Option.mem_some_iff] at hstop
  rw [← hstop]
  simpa using hnot

/-- Where the first text goes on behind a place, all do that have not been overrun. -/
theorem InOrder.lt_stop (h : InOrder listed) {pos : Int}
    (hhead : ∀ stop ∈ (listed.map Listed.stop).head?, pos < stop)
    {e : Listed} (he : e ∈ listed) (hclear : e.overrun = false) : pos < e.stop := by
  cases listed with
  | nil => cases he
  | cons first others =>
    have hfirst : pos < first.stop := hhead first.stop rfl
    rcases List.mem_cons.mp he with rfl | hothers
    · exact hfirst
    · exact lt_of_lt_of_le hfirst ((List.pairwise_cons.mp h).1 e hothers hclear)

/-- The list is exact wherever the cursor may go, if no text has been overrun. -/
theorem Account.lt_stop (h : s.Account listed) (hclear : ∀ e ∈ listed, e.overrun = false)
    (pos : Int) : ∀ stop ∈ s.ends.dropWhile (· ≤ pos), pos < stop := by
  intro stop hstop
  rw [← h.ends, List.dropWhile_map] at hstop
  obtain ⟨e, he, rfl⟩ := List.mem_map.mp hstop
  have hordered : InOrder
      (listed.dropWhile ((fun stop : Int => decide (stop ≤ pos)) ∘ Listed.stop)) :=
    List.Pairwise.sublist (List.dropWhile_sublist _) h.ordered
  refine hordered.lt_stop ?_ he (hclear e ((List.dropWhile_sublist _).mem he))
  rw [← List.dropWhile_map]
  exact lt_head_dropWhile _ pos

/-- Where a call is replaced by some text, the list goes on being exact if and only if the call lies
in all the texts that are listed. -/
theorem Account.lt_stop_iff (h : s.Account listed) (hclear : ∀ e ∈ listed, e.overrun = false)
    (hc : s.cursor = some c)
    (hrewritten : s.Rewritten s' c start length more text) (htext : text ≠ []) :
    (∀ pos : Int, ∀ stop ∈ s'.ends.dropWhile (· ≤ pos), pos < stop) ↔
      ∀ e ∈ s.expansions, ((start + length : Nat) : Int) ≤ e.stop := by
  constructor
  · intro hexact e he
    by_contra hbefore
    -- the text of the call hides the end of the other one
    let stop := endAfter start (text.length - length) e.stop
    have hcount : 0 < text.length := List.length_pos_iff.mpr htext
    have hhidden : stop < ((start + text.length : Nat) : Int) := by
      show endAfter start (text.length - length) e.stop < _
      unfold endAfter
      split <;> omega
    have hmem : stop ∈ s'.ends.dropWhile (· ≤ stop) := by
      rw [hrewritten.ends, newEnds, if_neg htext, List.singleton_append,
        List.dropWhile_cons_of_neg (by simpa using hhidden)]
      exact List.mem_cons_of_mem _ (List.mem_map_of_mem (List.mem_map_of_mem he))
    exact lt_irrefl stop (hexact stop stop hmem)
  · intro hwithin
    refine (h.replaced hc hrewritten).lt_stop fun e he => ?_
    rcases List.mem_append.mp he with hnew | hold
    · unfold newListed at hnew
      rw [if_neg htext, List.mem_singleton] at hnew
      rw [hnew]
    · obtain ⟨before, hbefore, rfl⟩ := List.mem_map.mp hold
      have hstop : before.stop ∈ s.ends := h.ends ▸ List.mem_map_of_mem hbefore
      obtain ⟨e, he, heq⟩ := List.mem_map.mp hstop
      refine Bool.or_eq_false_iff.mpr ⟨hclear before hbefore, decide_eq_false ?_⟩
      rw [← heq]
      exact not_lt.mpr (hwithin e he)

-- ---------------------------------------------------------------------------
-- What does not touch the list
-- ---------------------------------------------------------------------------

variable {expansions : List Expansion}

/-- Looking at the cursor leaves the expansions. -/
theorem keeps_theCursor : Run.Keeps (·.expansions = expansions) theCursor := by
  refine Run.keeps_get_bind fun s hs => ?_
  exact Run.leaves_orFail.mpr hs

/-- Moving the cursor leaves them. -/
theorem keeps_seek (pos : Nat) : Run.Keeps (·.expansions = expansions) (seek pos) :=
  Run.keeps_bind keeps_theCursor fun _ => Run.keeps_modify fun _ hs => hs

/-- Reading on in the line leaves them, too. -/
theorem keeps_appendNextLine : Run.Keeps (·.expansions = expansions) appendNextLine := by
  have htake : Run.Keeps (·.expansions = expansions) takeLine := by
    refine Run.keeps_get_bind fun s hs => ?_
    split
    · exact hs
    · exact hs
  refine Run.keeps_bind keeps_theCursor fun c => Run.keeps_bind htake fun line => ?_
  split
  · exact Run.keeps_pure _
  · exact Run.keeps_bind (Run.keeps_modify fun _ hs => hs) fun _ => Run.keeps_pure _

end Stream

-- ---------------------------------------------------------------------------
-- What an error lists
-- ---------------------------------------------------------------------------

/-- An open expansion, as messages list it. -/
def Expansion.call (e : Expansion) : MacroCall :=
  ⟨e.definition.name, e.args.tail, e.definition.definedAt⟩

namespace Scanner

variable {t t' t₀ : Scanner} {s s' s₂ : Stream} {c : Cursor} {α : Type} {calls : List MacroCall}

/-- The macros that messages list are those of the current input. -/
theorem history_of_current (h : t.current? = some s) :
    t.history = s.expansions.map Expansion.call := by
  unfold history
  rw [h]
  rfl

/-- The errors that a scanner finds on its own while it scans at a cursor. -/
def cursorErrors : List String :=
  ["junk_in_macro_call", "runaway_macro_call", "undefined_macro", "macro_stack_overflow",
    "unexpected_eof", "no_token_match"]

/-- The law of leaving the listed macros as they are, which errors at the cursor list. -/
def listing (calls : List MacroCall) : Run.Law Scanner where
  Holds t := t.history = calls
  Says _ fault _ _ := ∀ m, fault = some (.parse m) → m.id ∈ cursorErrors ∧ m.calls = calls
  still _ := fun _ h => (Option.some_ne_none _ h.symm).elim
  chain _ h := h

/-- An error at the cursor lists the macros that are listed there. -/
theorem listing_errorAt {id : String}
    (hid : id ∈ cursorErrors) (text : String) (position : Option Position)
    (data : Payload) : (listing calls).Obeyed (errorAt id text position data : Run Scanner α) := by
  intro t ht
  refine ⟨ht, fun m hm => ?_⟩
  rw [errorAt_result] at hm
  cases hm
  exact ⟨hid, ht⟩

/-- Work on the stream that leaves the expansions leaves the list. -/
theorem listing_onStream {work : Run Stream α} (hplain : Run.Respects Eq Fault.IsPlain work)
    (hkeeps : ∀ expansions, Run.Keeps (·.expansions = expansions) work) :
    (listing calls).Obeyed (onStream work) := by
  intro t ht
  cases hinputs : t.inputs with
  | nil =>
    constructor <;> rw [onStream_run_nil hinputs]
    · exact ht
    · rintro m ⟨⟩
  | cons input below =>
    have hcalls : input.stream.expansions.map Expansion.call = calls :=
      (history_of_current (current?_of_inputs hinputs)).symm.trans ht
    constructor <;> rw [onStream_run hinputs]
    · have hsame : (work.run input.stream).state.expansions = input.stream.expansions :=
        hkeeps _ _ rfl
      show (work.run input.stream).state.expansions.map Expansion.call = calls
      rw [hsame, hcalls]
    · intro m hm
      cases hresult : (work.run input.stream).result with
      | ok a =>
        rw [hresult] at hm
        cases hm
      | error fault =>
        rw [hresult] at hm
        cases hm
        exact ((hplain _ _ rfl).faults _ hresult).elim

/-- Reading a call leaves the list, and its errors show it. -/
theorem listing_readCall : (listing calls).Obeyed readCall := by
  have hcursor : (listing calls).Obeyed (onStream Stream.theCursor) :=
    listing_onStream Stream.respects_theCursor fun _ => Stream.keeps_theCursor
  have hround : (listing calls).Obeyed readCallRound := by
    intro t ht
    unfold readCallRound
    refine (hcursor t ht).bind fun c t₁ ht₁ _ => ?_
    split
    · refine (listing_onStream (Stream.respects_seek _) (fun _ => Stream.keeps_seek _) t₁ ht₁).bind
        ?_
      exact fun _ _ ht₂ _ => Run.accords_pure _ ht₂
    · split
      · exact listing_errorAt (by decide) _ _ _ t₁ ht₁
      · refine (listing_onStream Stream.respects_appendNextLine
          (fun _ => Stream.keeps_appendNextLine) t₁ ht₁).bind ?_
        intro more t₂ ht₂ _
        split
        · exact Run.accords_pure _ ht₂
        · exact listing_errorAt (by decide) _ _ _ t₂ ht₂
  have hcut : ∀ t, (listing calls).Says t (some .exhausted) [] t := by
    rintro t m ⟨⟩
  intro t ht
  exact Run.accords_get_bind (Run.accords_repeated hcut hround _ ht)

/-- If a result is an error in the input, it is one at the cursor, and lists certain macros. -/
def Blames (calls : List MacroCall) (r : Except Fault α) : Prop :=
  ∀ m, r = .error (.parse m) → m.id ∈ cursorErrors ∧ m.calls = calls

/-- What is no error blames nothing. -/
theorem blames_ok (a : α) : Blames calls (.ok a) := nofun

/-- Blame does not depend on the value. -/
theorem Blames.map {β : Type} {r : Except Fault α} (h : Blames calls r) (f : α → β) :
    Blames calls (r.map f) := by
  cases r with
  | ok a => exact blames_ok _
  | error fault =>
    rintro m ⟨⟩
    exact h m rfl

/-- An error lists what is listed at the moment. -/
theorem blames_errorAt {id : String} (hid : id ∈ cursorErrors) (text : String)
    (position : Option Position) (data : Payload) (t : Scanner) :
    (errorAt id text position data : Run Scanner α).Leaves t fun r _ => Blames t.history r := by
  intro m hm
  rw [errorAt_result] at hm
  cases hm
  exact ⟨hid, rfl⟩

/-- An error while a call is read lists what was listed before. -/
theorem blames_readCall (t : Scanner) :
    readCall.Leaves t fun r t' => Blames t.history r ∧ t'.history = t.history := by
  have hobeyed : (listing t.history).Obeyed readCall := listing_readCall
  obtain ⟨hholds, htold⟩ := hobeyed t rfl
  refine ⟨fun m hm => htold m ?_, hholds⟩
  rw [hm]
  rfl

/-- An error while a call is expanded does so, too. -/
theorem blames_expandCall (h : t.current? = some s) (hc : s.cursor = some c) (call : Call) :
    (expandCall call).Leaves t fun r _ => Blames t.history r := by
  have hdrop : (discard (onStream (Stream.injectText [] call.length))).Leaves t fun r _ =>
      Blames t.history r := by
    rw [Run.leaves_discard, leaves_onStream h, Stream.leaves_injectText hc]
    exact blames_ok ()
  unfold expandCall
  rw [Run.leaves_get_bind]
  refine (resolve_leaves ..).bind (fun resolution t' hr => ?_) fun fault t' hr => ?_
  · obtain rfl := hr.1
    cases resolution with
    | undefined => exact blames_errorAt (by decide) _ _ _ t'
    | missing => exact hdrop
    | expanded definition text =>
      dsimp only
      split
      · exact hdrop
      · rw [Run.leaves_bind, leaves_onStream h, Stream.leaves_injectMacro hc]
        split
        · rw [onto_current h]
          exact blames_errorAt (by decide) _ _ _ t'
        · exact blames_ok ()
  · obtain ⟨-, rfl⟩ := hr
    rintro m ⟨⟩

/-- The errors of a call are errors at the cursor, and list the macros that were listed before. -/
theorem blames_replaceCall (h : t.current? = some s) (hopen : s.isClosed = false)
    (hc : s.cursor = some c) : replaceCall.Leaves t fun r _ => Blames t.history r := by
  have hreads := readCall_leaves h hopen hc
  have hblames := blames_readCall t
  refine Run.Leaves.bind (Q := fun r t₁ => ReadsCall t s c r t₁ ∧ Blames t.history r ∧
    t₁.history = t.history) ⟨hreads, hblames⟩ (fun call t₁ hr => ?_) fun fault t₁ hr m hm => ?_
  · obtain ⟨hread, -, hsame⟩ := hr
    cases hread with
    | read _ _ hmoves =>
      rw [← hsame]
      exact blames_expandCall (hmoves.current h) rfl call
  · exact hr.2.1 m (by cases hm; rfl)

/-- And so does one about a call inside a match, though the cursor has moved there. -/
theorem blames_replaceCallAt (h : t.current? = some s) (hopen : s.isClosed = false)
    (hc : s.cursor = some c)
    (start back : Nat) : (replaceCallAt start back).Leaves t fun r _ => Blames t.history r := by
  let s₁ : Stream := { s with cursor := some (c.seek start) }
  have hcurrent : (t.onto s₁).current? = some s₁ := current?_onto h s₁
  have hsame : (t.onto s₁).history = t.history := by
    rw [history_of_current hcurrent, history_of_current h]
  unfold replaceCallAt
  rw [Run.leaves_bind, leaves_onStream h, Stream.leaves_seek hc, Run.continues_ok, ← hsame]
  have hreplace : replaceCall.Leaves (t.onto s₁) fun r t' =>
      Blames (t.onto s₁).history r ∧ Replaces (t.onto s₁) s₁ (c.seek start) start r t' :=
    ⟨blames_replaceCall hcurrent hopen rfl, replaceCall_leaves hcurrent hopen rfl⟩
  refine hreplace.bind (fun _ t₁ hr => ?_) fun fault t₁ hr => hr.1
  obtain ⟨-, hreplaces⟩ := hr
  cases hreplaces with
  | replaced hrewritten _ hmoves =>
    rw [leaves_onStream (hmoves.current hcurrent), Stream.leaves_seek hrewritten.cursor]
    exact blames_ok ()

/-- Text that no pattern matches is reported with the list there is. -/
theorem blames_reportUnmatched (h : t.current? = some s) (hopen : s.isClosed = false)
    (hc : s.cursor = some c) : reportUnmatched.Leaves t fun r _ => Blames t.history r := by
  have hlisted : ∀ id ∈ ["unexpected_eof", "no_token_match"], id ∈ cursorErrors := by decide
  exact reportUnmatched_leaves_of h hopen hc fun id hid text =>
    blames_errorAt (hlisted id hid) text none .null t

/-- The errors of a scan at a cursor are those that a scanner finds there, and list the macros that
are listed when it begins, unless they come from a routine. -/
theorem blames_scanAtCursor (h : t.current? = some s) (hopen : s.isClosed = false)
    (hc : s.cursor = some c) (hplain : ∀ p m, plan t c = .token p m → p.routine = none) :
    scanAtCursor.Leaves t fun r _ => Blames (s.expansions.map Expansion.call) r := by
  have h₀ : t.noting.current? = some s := (moves_noting h).current h
  have hhistory : t.noting.history = s.expansions.map Expansion.call := history_of_current h₀
  refine scanAtCursor_leaves_of h hc (fun _ => ?_) (fun start stop _ => ?_)
    (fun p m hplan => ?_) fun _ => ?_
  · rw [← hhistory]
    exact (blames_replaceCall h₀ hopen hc).mono fun r _ hr => hr.map _
  · have hthere := current?_onto h₀ { s with cursor := some (c.seek stop) }
    rw [← history_of_current hthere]
    exact (blames_replaceCallAt hthere hopen rfl start c.pos).mono fun r _ hr => hr.map _
  · unfold produce
    rw [hplain p m hplan]
    exact blames_ok _
  · rw [← hhistory]
    exact (blames_reportUnmatched h₀ hopen hc).mono fun r _ hr => hr.map _

-- ---------------------------------------------------------------------------
-- Macros listed, and macros open
-- ---------------------------------------------------------------------------

/-- A line that a token is scanned in has an account of its macros. -/
theorem Reached.accounted (h : Reached t₀ t) (hcurrent : t.current? = some s)
    (hup : s.upcoming? = some s') : ∃ listed, s'.Account listed := by
  obtain ⟨-, past, hhistory⟩ : s.Traced .token := h.traced.current hcurrent
  obtain ⟨listed, haccount⟩ := hhistory.accounted
  obtain ⟨s₀, rfl, rfl | rfl, -⟩ := Stream.upcoming?_tidied hup
  · exact ⟨_, .cleaned haccount⟩
  · exact ⟨_, .cleaned (.line s)⟩

/-- **The listed macros** are those whose texts go on behind the cursor, apart from those that have
been overrun. They are what the errors of the round list. And a text that is overrun is bound to
stay on the list too long: if none has been so far, a call that is replaced leaves the list exact if
and only if the call lies in all the texts listed. -/
theorem listed_open (h : Reached t₀ t) (hcurrent : t.current? = some s)
    (hup : s.upcoming? = some s') (hc : s'.cursor = some c) :
    (∃ listed, s'.Account listed) ∧ ∀ listed, s'.Account listed →
      List.Forall₂ (fun (e : Expansion) (record : Listed) => record.stop = e.stop ∧
        (record.overrun = false → (c.pos : Int) < e.stop)) s'.expansions listed ∧
      ((∀ p m, plan t c = .token p m → p.routine = none) → ∀ m,
        (scanRound.run t).result = .error (.parse m) → m.calls = s'.expansions.map Expansion.call) ∧
      ((∀ record ∈ listed, record.overrun = false) → ∀ s₂ start length more text,
        s'.Rewritten s₂ c start length more text → text ≠ [] →
          ((∀ pos : Int, ∀ stop ∈ s₂.ends.dropWhile (· ≤ pos), pos < stop) ↔
            ∀ e ∈ s'.expansions, ((start + length : Nat) : Int) ≤ e.stop)) := by
  have htraced : s.Traced .token := h.traced.current hcurrent
  have hopen := htraced.1
  obtain ⟨s₀, rfl, -, -⟩ := Stream.upcoming?_tidied hup
  have hc₀ : s₀.cursor = some c := hc
  refine ⟨h.accounted hcurrent hup, fun listed haccount => ⟨?_, fun hplain m hm => ?_, ?_⟩⟩
  · have hends : listed.map Listed.stop = s₀.cleanup.expansions.map Expansion.stop := haccount.ends
    have hhead : ∀ stop ∈ (listed.map Listed.stop).head?, (c.pos : Int) < stop := by
      rw [haccount.ends, Stream.ends_cleanup, Stream.pos_of_cursor hc₀]
      exact Stream.lt_head_dropWhile _ _
    rw [List.forall₂_iff_get]
    have hlength : s₀.cleanup.expansions.length = listed.length := by
      simpa using (congrArg List.length hends).symm
    refine ⟨hlength, fun i hi hi' => ?_⟩
    have hsame : listed[i].stop = s₀.cleanup.expansions[i].stop := by
      have hget := congrArg (·[i]?) hends
      simpa [hi, hi'] using hget
    refine ⟨hsame, fun hclear => ?_⟩
    have hlt := haccount.ordered.lt_stop hhead (List.getElem_mem hi') hclear
    rwa [hsame] at hlt
  · have hopen' : s₀.cleanup.isClosed = false := (Stream.isClosed_upcoming? hup).trans hopen
    have hround : scanRound.Leaves t fun r _ =>
        Blames (s₀.cleanup.expansions.map Expansion.call) r := by
      rw [scanRound_leaves hcurrent hopen, hup]
      exact blames_scanAtCursor (current?_onto hcurrent _) hopen' hc hplain
    exact (hround m hm).2
  · exact fun hclear s₂ start length more text hrewritten htext =>
      haccount.lt_stop_iff hclear hc hrewritten htext

/-- Without routines nothing that is planned calls one. -/
theorem routine_of_plan {p : TokenPattern} {m : Match}
    (hplain : ((t.lexicon.patterns? t.mode).getD []).all (·.routine.isNone) = true)
    (h : plan t c = .token p m) : p.routine = none :=
  Option.isNone_iff_eq_none.mp (List.all_eq_true.mp hplain p (mem_of_plan_token h).1)

/-- Names of small letters and digits. -/
private def letters : TokenPattern :=
  ⟨some "ID", ⟨.repeated 1 none false (.oneOf false [.range 'a' 'z', .range '0' '9']), 0, {}⟩, none⟩

/-- A scanner of a text with macros. -/
private def expanding (text : String) (macros : List Macro) : Scanner :=
  { master := text, lexicon := [(none, [letters])], defaultMode := none, mode := none,
    macros := ⟨macros⟩ }

/-- A scanner after its first token, which is scanned in the third round. -/
private def afterToken (t : Scanner) : Scanner := ((next 3).run ((start true).run t).state).state

/-- The identifier of an error, with the names of the macros that it lists. -/
private def listedNames? {α : Type} (r : Except Fault α) : Option (String × List String) :=
  (raised? r).map fun m => (m.id, m.calls.map MacroCall.name)

/-- The text of a macro begins with a call of another one. -/
private def within : Scanner :=
  expanding "$\x7bx\x7d" [⟨"x", "$\x7by\x7d@", none⟩, ⟨"y", "a", none⟩]

/-- Behind the text of the inner macro only the outer one is listed, and an error says so. -/
theorem listed_open_within : ∃ s s' c m, Reached within (afterToken within) ∧
    (afterToken within).current? = some s ∧ s.upcoming? = some s' ∧ s'.cursor = some c ∧
    (∃ listed, s'.Account listed ∧
      List.Forall₂ (fun (e : Expansion) (record : Listed) => record.stop = e.stop ∧
      (record.overrun = false → (c.pos : Int) < e.stop)) s'.expansions listed) ∧
    (scanRound.run (afterToken within)).result = .error (.parse m) ∧
    m.calls = s'.expansions.map Expansion.call ∧ m.calls.map MacroCall.name = ["x"] := by
  have hreached : Reached within (afterToken within) := .next .opened 3
  obtain ⟨s, hcurrent, hup⟩ := upcoming?_of_isSome (t := afterToken within) (by decide +kernel)
  have hc : (afterToken within).upcoming.cursor = some ⟨"a@".toList, 1⟩ := by decide +kernel
  have hnames : listedNames? (scanRound.run (afterToken within)).result =
      some ("no_token_match", ["x"]) := by
    decide +kernel
  obtain ⟨m, hseen, hm⟩ := of_raised? hnames
  obtain ⟨-, hcalls⟩ := Prod.mk.inj hseen
  obtain ⟨⟨listed, haccount⟩, hlisted⟩ := listed_open hreached hcurrent hup hc
  obtain ⟨hopen, herror, -⟩ := hlisted listed haccount
  exact ⟨s, _, _, m, hreached, hcurrent, hup, hc, ⟨listed, haccount, hopen⟩, hm,
    herror (fun p m => routine_of_plan (by decide +kernel)) m hm, hcalls⟩

/-- Two calls stand in one token, and neither macro has a call in its text. -/
private def glued : Scanner :=
  expanding "a$\x7bx\x7d$\x7by\x7d" [⟨"x", "0", none⟩, ⟨"y", "1@", none⟩]

/-- A macro may be listed whose text is over: behind the token the text of the second macro goes on,
and an error there lists the first one, too, whose text is part of the token. -/
theorem listed_over_siblings :
    ((glued.lexicon.patterns? glued.defaultMode).getD []).all (·.routine.isNone) = true ∧
    ∃ s s' c e m, Reached glued (afterToken glued) ∧ (afterToken glued).current? = some s ∧
      s.upcoming? = some s' ∧ s'.cursor = some c ∧ e ∈ s'.expansions ∧ e.stop ≤ (c.pos : Int) ∧
      (scanRound.run (afterToken glued)).result = .error (.parse m) ∧ m.id = "no_token_match" ∧
      m.calls.map MacroCall.name = ["y", "x"] ∧ e.definition.name = "x" := by
  obtain ⟨s, hcurrent, hup⟩ := upcoming?_of_isSome (t := afterToken glued) (by decide +kernel)
  have hc : (afterToken glued).upcoming.cursor = some ⟨"a01@".toList, 3⟩ := by decide +kernel
  have hsecond : ((afterToken glued).upcoming.expansions[1]?.map fun e =>
      (e.definition.name, e.stop)) = some ("x", 2) := by
    decide +kernel
  obtain ⟨e, he, hsame⟩ := Option.map_eq_some_iff.mp hsecond
  obtain ⟨hname, hstop⟩ := Prod.mk.inj hsame
  have hnames : listedNames? (scanRound.run (afterToken glued)).result =
      some ("no_token_match", ["y", "x"]) := by
    decide +kernel
  obtain ⟨m, hseen, hm⟩ := of_raised? hnames
  obtain ⟨hid, hcalls⟩ := Prod.mk.inj hseen
  refine ⟨by decide +kernel, s, _, _, e, m, .next .opened 3, hcurrent, hup, hc,
    List.mem_of_getElem? he, ?_, hm, hid, hcalls, hname⟩
  rw [hstop]
  decide

end Scanner

end GrammarEngine
