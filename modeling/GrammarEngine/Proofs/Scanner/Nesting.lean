import GrammarEngine.Proofs.Scanner.Levels

/-!
# When too many expansions are open

A scanner counts the expansions that are open, and refuses a call if there are too many. What it
counts are not the expansions that the call is nested in. Where a token has a call inside, the
scanner goes back to the start of the token once it has been replaced, and so the expansions that
end behind the start of the token are counted for the next call, though their text is over. This
module tells how the current line has come about, with the calls that were expanded in it and how
deep each was nested (`Stream.History`), by either way to count: by the place of the call
(`Anchor.call`), or by the start of its token (`Anchor.token`).

Main results:

* `History.kept` — what a scanner counts has been nested as deep, seen from the starts
  of the tokens.
* `Reached.traced` — every line of a scanner has come about in such a way.
* `overflow_nested` — too many expansions are open only if as many are nested, counted by the
  starts of the tokens.
* `not_nested_siblings` — not so, counted by the calls.
-/

namespace GrammarEngine

-- ---------------------------------------------------------------------------
-- The calls of a line
-- ---------------------------------------------------------------------------

/-- A macro call that has been expanded in the current line: where its text ends by now, how deep it
was nested in the expansions of others, and whether it stood inside its token rather than at the
start of that. -/
structure Expanded where
  stop : Int
  depth : Nat
  inside : Bool

/-- An expansion after the line has grown from a place on. -/
def Expanded.shift (start : Nat) (growth : Int) (e : Expanded) : Expanded :=
  { e with stop := Stream.endAfter start growth e.stop }

/-- How deep the expansions are nested that end behind a place. -/
def depthAt (past : List Expanded) (place : Nat) : Nat :=
  ((past.filter fun e => (place : Int) < e.stop).map Expanded.depth).foldr max 0

/-- Which place of a token and of the call in it has to be in front of the end of an expansion, for
the call to count as nested in that. -/
abbrev Anchor := Nat → Nat → Nat

/-- A call is nested in the expansions that it begins in. -/
def Anchor.call : Anchor := fun _ call => call

/-- A call is nested in the expansions, too, that the token before it belongs to. -/
def Anchor.token : Anchor := fun token _ => token

/-- The record of a call at a place of a token. A call without a text leaves none. -/
def recorded (anchor : Anchor) (past : List Expanded) (token call : Nat)
    (text : List Char) : List Expanded :=
  if text = [] then []
  else [⟨↑(call + text.length), depthAt past (anchor token call) + 1, decide (token ≠ call)⟩]

namespace Stream

variable {anchor : Anchor} {s s' : Stream} {past : List Expanded} {c : Cursor}

/-- How the current line of a stream has come about: the calls that have been expanded in it, the
latest first. -/
inductive History (anchor : Anchor) : Stream → List Expanded → Prop
  /-- No line has been read. -/
  | unread {s : Stream} (hcursor : s.cursor = none) (hends : s.ends = []) : History anchor s []
  /-- The next line has been read. -/
  | line (s : Stream) : History anchor s.atNextLine []
  /-- The cursor has moved, and perhaps the line goes on with some more text. -/
  | moved {s s' : Stream} {past : List Expanded} {c : Cursor} {pos : Nat} {more : List Char}
      (h : History anchor s past) (hc : s.cursor = some c)
      (hlonger : s.Longer s' (c.seek pos) more) : History anchor s' past
  /-- Expansions that end at the cursor or before it have been forgotten. -/
  | cleaned {s : Stream} {past : List Expanded} (h : History anchor s past) :
      History anchor s.cleanup past
  /-- The last line is done. -/
  | ended {s : Stream} {past : List Expanded} (h : History anchor s past) :
      History anchor { s with cursor := none } past
  /-- A routine has replaced some text in front of the cursor. -/
  | injected {s : Stream} {past : List Expanded} {c : Cursor}
      (h : History anchor s past) (hc : s.cursor = some c) (text : List Char) (length : Nat) :
      History anchor (s.replaced c text length)
        (past.map (.shift (c.pos - length) (text.length - length)))
  /-- A call has been replaced that the scan of a token has come upon. -/
  | replaced {s s' : Stream} {past : List Expanded} {c : Cursor} {start length : Nat}
      {more text : List Char} (h : History anchor s past) (hc : s.cursor = some c)
      (hrewritten : s.cleanup.Rewritten s' c start length more text) :
      History anchor s'
        (recorded anchor past c.pos start text ++ past.map (.shift start (text.length - length)))

-- ---------------------------------------------------------------------------
-- What is kept of the calls
-- ---------------------------------------------------------------------------

/-- The expansions that are counted as open are some of those of the line, and each is at least as
deep as there are others below it. -/
inductive Kept : List Int → List Expanded → Prop
  | nil : Kept [] []
  | forgotten {ends : List Int} {past : List Expanded} {e : Expanded}
      (h : Kept ends past) : Kept ends (e :: past)
  | kept {ends : List Int} {past : List Expanded} {e : Expanded}
      (h : Kept ends past) (hdepth : ends.length < e.depth) : Kept (e.stop :: ends) (e :: past)

/-- Ends and records move together when the line grows. -/
theorem Kept.shift {ends : List Int} (start : Nat) (growth : Int) (h : Kept ends past) :
    Kept (ends.map (endAfter start growth)) (past.map (.shift start growth)) := by
  induction h with
  | nil => exact .nil
  | forgotten _ ih => exact .forgotten ih
  | @kept ends past e _ hdepth ih =>
    have hlength : (ends.map (endAfter start growth)).length < (e.shift start growth).depth := by
      rw [List.length_map]
      exact hdepth
    exact .kept ih hlength

/-- Expansions that are forgotten leave the others kept. -/
theorem Kept.suffix {ends ends' : List Int}
    (h : Kept ends past) (hsuffix : ends' <:+ ends) : Kept ends' past := by
  induction h with
  | nil =>
    rw [List.suffix_nil.mp hsuffix]
    exact .nil
  | forgotten _ ih => exact .forgotten (ih hsuffix)
  | kept h hdepth ih =>
    rcases List.suffix_cons_iff.mp hsuffix with rfl | hsuffix
    · exact .kept h hdepth
    · exact .forgotten (ih hsuffix)

/-- An expansion counts at a place that is in front of its end. -/
theorem depthAt_cons (e : Expanded) (past : List Expanded) (place : Nat) :
    depthAt (e :: past) place =
    if (place : Int) < e.stop then max e.depth (depthAt past place) else depthAt past place := by
  unfold depthAt
  by_cases h : (place : Int) < e.stop <;> simp [h]

/-- No more expansions are open at a place than they are nested there. -/
theorem Kept.openAt_le_depthAt {ends : List Int} (h : Kept ends past) (place : Nat) :
    openAt ends place ≤ depthAt past place := by
  induction h with
  | nil => exact Nat.le_refl 0
  | @forgotten ends past e _ ih =>
    rw [depthAt_cons]
    split
    · exact Nat.le_trans ih (Nat.le_max_right ..)
    · exact ih
  | @kept ends past e _ hdepth ih =>
    rw [depthAt_cons]
    split
    · next hbehind =>
      have hopen : openAt (e.stop :: ends) place ≤ ends.length + 1 := openAt_le ..
      exact Nat.le_trans hopen (Nat.le_trans hdepth (Nat.le_max_left ..))
    · next hover =>
      have hdrop : openAt (e.stop :: ends) place = openAt ends place := by
        unfold openAt
        rw [List.dropWhile_cons_of_pos (by simpa using hover)]
      rw [hdrop]
      exact ih

/-- The expansions that are counted as open have all been nested in what belongs to their tokens. -/
theorem History.kept (h : s.History .token past) : Kept s.ends past := by
  induction h with
  | unread hcursor hends =>
    rw [hends]
    exact .nil
  | line s => exact .nil
  | moved h hc hlonger ih =>
    have hends := congrArg (List.map Expansion.stop) hlonger.expansions
    unfold ends at ih ⊢
    rw [hends]
    exact ih
  | @cleaned s past h ih =>
    rw [ends_cleanup]
    exact ih.suffix (List.dropWhile_suffix _)
  | ended h ih => exact ih
  | injected h hc text length ih =>
    rw [ends_replaced]
    exact ih.shift ..
  | @replaced s s' past c start length more text h hc hrewritten ih =>
    rw [hrewritten.ends, ends_cleanup, pos_of_cursor hc]
    have hshift :=
      (ih.suffix (List.dropWhile_suffix (· ≤ (c.pos : Int)))).shift start (text.length - length)
    unfold newEnds recorded
    split
    · exact hshift
    · have hdepth := ih.openAt_le_depthAt c.pos
      have hlength : (List.map (endAfter start (text.length - length))
          (s.ends.dropWhile (· ≤ (c.pos : Int)))).length < depthAt past c.pos + 1 := by
        rw [List.length_map]
        exact Nat.lt_succ_of_le hdepth
      exact Kept.kept (e := ⟨↑(start + text.length), depthAt past c.pos + 1,
        decide (c.pos ≠ start)⟩) hshift hlength

/-- Where no call stands inside a token, there is no difference between the two ways to count. -/
theorem History.of_call (h : s.History .call past) (hstarts : ∀ e ∈ past, e.inside = false) :
    s.History .token past := by
  have hshift : ∀ {past : List Expanded} {start : Nat} {growth : Int},
      (∀ e ∈ past.map (Expanded.shift start growth), e.inside = false) →
      ∀ e ∈ past, e.inside = false :=
    fun hshifted e he => hshifted (e.shift _ _) (List.mem_map_of_mem he)
  induction h with
  | unread hcursor hends => exact .unread hcursor hends
  | line s => exact .line s
  | moved h hc hlonger ih => exact .moved (ih hstarts) hc hlonger
  | cleaned h ih => exact .cleaned (ih hstarts)
  | ended h ih => exact .ended (ih hstarts)
  | injected h hc text length ih => exact .injected (ih (hshift hstarts)) hc text length
  | @replaced s s' past c start length more text h hc hrewritten ih =>
    have hpast : ∀ e ∈ past, e.inside = false :=
      hshift fun e he => hstarts e (List.mem_append_right _ he)
    have hsame : recorded .call past c.pos start text = recorded .token past c.pos start text := by
      unfold recorded
      split
      · rfl
      · next htext =>
        have hrecord :=
          hstarts ⟨↑(start + text.length), depthAt past start + 1, decide (c.pos ≠ start)⟩ (by
            refine List.mem_append_left _ ?_
            rw [recorded, if_neg htext]
            exact List.mem_singleton_self _)
        have hstart : c.pos = start := by simpa using hrecord
        unfold Anchor.call Anchor.token
        rw [hstart]
    rw [hsame]
    exact .replaced (ih hpast) hc hrewritten

/-- A stream whose line has come about in some way. -/
def Traced (anchor : Anchor) (s : Stream) : Prop :=
  s.isClosed = false ∧ ∃ past, s.History anchor past

/-- A line that has moved on, or got longer, has come about in some way. -/
theorem Traced.of_longer {pos : Nat} {more : List Char} (h : s.Traced anchor)
    (hc : s.cursor = some c) (hlonger : s.Longer s' (c.seek pos) more) : s'.Traced anchor := by
  obtain ⟨hopen, past, hhistory⟩ := h
  exact ⟨hlonger.isClosed.trans hopen, past, .moved hhistory hc hlonger⟩

/-- And so has one into which a routine has put text. -/
theorem Traced.injected (h : s.Traced anchor) (hc : s.cursor = some c) (text : List Char)
    (length : Nat) : (s.replaced c text length).Traced anchor := by
  obtain ⟨hopen, past, hhistory⟩ := h
  exact ⟨hopen, _, .injected hhistory hc text length⟩

/-- The stream that a token is scanned in has been tidied. -/
theorem upcoming?_tidied (h : s.upcoming? = some s') :
    ∃ s₀, s' = s₀.cleanup ∧ (s₀ = s ∨ s₀ = s.atNextLine) ∧ ∃ c, s₀.cursor = some c := by
  unfold upcoming? at h
  split at h
  · next hready =>
    cases hc : s.cursor with
    | none =>
      rw [hc] at hready
      cases hready
    | some c => exact ⟨s, (Option.some.inj h).symm, .inl rfl, c, hc⟩
  · split at h
    · cases h
    · exact ⟨s.atNextLine, (Option.some.inj h).symm, .inr rfl, _, rfl⟩

/-- A new line has no expansions yet. -/
theorem Traced.atNextLine (h : s.Traced anchor) : s.atNextLine.Traced anchor := ⟨h.1, [], .line s⟩

/-- In a stream that a token is scanned in all expansions that are counted reach behind
the cursor. -/
theorem History.length_le (h : s'.History .token past) (hup : s.upcoming? = some s')
    (hc : s'.cursor = some c) : s'.expansions.length ≤ depthAt past c.pos := by
  obtain ⟨s₀, rfl, -, -⟩ := upcoming?_tidied hup
  have hall : openAt s₀.cleanup.ends c.pos = s₀.cleanup.ends.length := by
    have hc₀ : s₀.cursor = some c := hc
    rw [ends_cleanup, pos_of_cursor hc₀, openAt_dropWhile _ (Nat.le_refl _)]
    rfl
  rw [← List.length_map Expansion.stop]
  exact hall.symm.trans_le (h.kept.openAt_le_depthAt c.pos)

end Stream

-- ---------------------------------------------------------------------------
-- Every line of a scanner has come about in some way
-- ---------------------------------------------------------------------------

namespace Scanner

variable {anchor : Anchor} {t t' t₀ : Scanner} {s s' : Stream} {c : Cursor} {α : Type}

/-- A scanner whose lines have all come about in some way. -/
def Traced (anchor : Anchor) (t : Scanner) : Prop := ∀ input ∈ t.inputs, input.stream.Traced anchor

/-- What the inputs tell does not change with the rest of the scanner. -/
theorem Traced.of_inputs (h : t.Traced anchor)
    (hinputs : t'.inputs = t.inputs) : t'.Traced anchor :=
  fun input hinput => h input (hinputs ▸ hinput)

/-- The current input may be replaced by one whose line has come about in some way. -/
theorem Traced.onto (h : t.Traced anchor) (hs : s.Traced anchor) : (t.onto s).Traced anchor := by
  intro input hinput
  unfold Scanner.onto at hinput
  cases hinputs : t.inputs with
  | nil =>
    rw [hinputs] at hinput
    cases hinput
  | cons top below =>
    rw [hinputs] at hinput
    rcases List.mem_cons.mp hinput with rfl | hinput
    · exact hs
    · exact h input (hinputs ▸ List.mem_cons_of_mem _ hinput)

/-- Moving on to a stream of that kind keeps all lines so. -/
theorem Traced.moves (h : t.Traced anchor) (hmoves : Moves t t' s)
    (hs : s.Traced anchor) : t'.Traced anchor :=
  (h.onto hs).of_inputs hmoves.inputs

/-- The current input is one of the inputs. -/
theorem Traced.current (h : t.Traced anchor)
    (hcurrent : t.current? = some s) : s.Traced anchor := by
  obtain ⟨input, hinput, rfl⟩ := Option.map_eq_some_iff.mp hcurrent
  exact h input (List.mem_of_head? hinput)

/-- What does not touch the inputs keeps their lines. -/
theorem keeps_of_inputs {x : Run Scanner α} (h : ∀ t, x.Leaves t fun _ t' => t'.inputs = t.inputs) :
    Run.Keeps (Traced anchor) x :=
  fun t htraced => (h t).mono fun _ _ hinputs => htraced.of_inputs hinputs

/-- Reporting an error leaves the inputs. -/
theorem errorAt_inputs (id text : String) (position : Option Position) (data : Payload)
    (t : Scanner) :
    (errorAt id text position data : Run Scanner α).Leaves t fun _ t' => t'.inputs = t.inputs := rfl

/-- So does any report. -/
theorem report_inputs (severity : Severity) (id text : String) (position : Option Position)
    (data : Payload) (t : Scanner) :
    (report severity id text position data).Leaves t fun _ t' => t'.inputs = t.inputs := by
  unfold report
  rw [Run.leaves_get_bind, Run.leaves_discard]
  exact Run.leaves_zoom.mpr rfl

/-- Setting a mode leaves the inputs. -/
theorem setMode_inputs (mode : Mode) (t : Scanner) :
    (setMode mode).Leaves t fun _ t' => t'.inputs = t.inputs := by
  unfold setMode
  rw [Run.leaves_get_bind]
  split <;> rfl

/-- Pushing one leaves them, too. -/
theorem pushMode_inputs (mode : Mode) (t : Scanner) :
    (pushMode mode).Leaves t fun _ t' => t'.inputs = t.inputs := by
  unfold pushMode
  rw [Run.leaves_get_bind]
  exact (setMode_inputs mode t).bind (fun _ _ h => h) fun _ _ h => h

/-- And so does popping one. -/
theorem popMode_inputs (t : Scanner) : popMode.Leaves t fun _ t' => t'.inputs = t.inputs := by
  unfold popMode
  rw [Run.leaves_get_bind]
  split
  · rfl
  · exact Run.leaves_modify_bind.mpr (setMode_inputs _ _)

/-- A token that is pushed back is put in no input. -/
theorem pushBack_inputs (token : Token) (t : Scanner) :
    (pushBack token).Leaves t fun _ t' => t'.inputs = t.inputs := by
  unfold pushBack
  rw [Run.leaves_get_bind]
  split <;> rfl

/-- Text that is injected is one more way for a line to come about. -/
theorem keeps_inject (text : String) (length : Nat) :
    Run.Keeps (Traced anchor) (inject text length) := by
  intro t htraced
  unfold inject
  rw [Run.leaves_get_bind]
  split
  · exact htraced
  · next hopen =>
    cases hinputs : t.inputs with
    | nil =>
      rw [hinputs] at hopen
      exact absurd rfl hopen
    | cons input below =>
      have hcurrent := current?_of_inputs hinputs
      rw [Run.leaves_discard, leaves_onStream hcurrent]
      cases hc : input.stream.cursor with
      | none =>
        unfold Stream.injectText
        rw [Stream.leaves_theCursor_bind_of_none hc]
        exact htraced.onto (htraced.current hcurrent)
      | some c =>
        rw [Stream.leaves_injectText hc]
        exact htraced.onto ((htraced.current hcurrent).injected hc _ _)

/-- A file that is opened starts without a line. -/
theorem traced_of_ofFile? {disk : Disk} {name : String}
    (h : Stream.ofFile? disk name = .ok s) : s.Traced anchor := by
  unfold Stream.ofFile? at h
  cases hread : disk.read name with
  | error fault =>
    rw [hread] at h
    cases h
  | ok text =>
    rw [hread] at h
    cases h
    exact ⟨rfl, [], .unread rfl rfl⟩

/-- A file that is opened has no line yet. -/
theorem openFile_leaves (anchor : Anchor) (name id complaint : String) (position : Option Position)
    (t : Scanner) : (openFile name id complaint position).Leaves t fun r t' =>
      t'.inputs = t.inputs ∧ ∀ stream, r = .ok stream → stream.Traced anchor := by
  unfold openFile
  rw [Run.leaves_get_bind]
  cases hfile : Stream.ofFile? t.disk name with
  | ok stream => exact ⟨rfl, fun stream' h => Except.ok.inj h ▸ traced_of_ofFile? hfile⟩
  | error fault =>
    dsimp only
    split
    · refine ⟨rfl, fun stream h => ?_⟩
      obtain ⟨s', hreturns⟩ : ∃ s', Run.Returns _ t stream s' :=
        ⟨_, Run.returns_of_result (congrArg Except.toOption h)⟩
      exact absurd hreturns not_returns_errorAt
    · exact ⟨rfl, nofun⟩

/-- An included file joins the others without a line. -/
theorem keeps_includeFile (name : String) (position : Option Position) (atEnd : Routine) :
    Run.Keeps (Traced anchor) (includeFile name position atEnd) := by
  intro t htraced
  unfold includeFile
  rw [Run.leaves_get_bind]
  dsimp only
  split
  · exact htraced.of_inputs (errorAt_inputs ..)
  · refine (openFile_leaves anchor _ _ _ position t).bind (fun stream t₁ hr => ?_)
      fun fault t₁ hr => htraced.of_inputs hr.1
    have hbelow : t₁.Traced anchor := htraced.of_inputs hr.1
    intro input hinput
    rcases List.mem_cons.mp hinput with rfl | hinput
    · exact hr.2 stream rfl
    · -- what is below stays, apart from the token that is put aside
      cases hinputs : t₁.inputs with
      | nil =>
        rw [hinputs] at hinput
        cases hinput
      | cons top below =>
        rw [hinputs] at hinput
        rcases List.mem_cons.mp hinput with rfl | hinput
        · exact hbelow top (hinputs ▸ List.mem_cons_self)
        · exact hbelow input (hinputs ▸ List.mem_cons_of_mem _ hinput)

/-- **Routines** change lines by injecting text, and by including files. -/
theorem keeps_perform (routine : Routine) : Run.Keeps (Traced anchor) (perform routine) := by
  induction routine with
  | setMode mode rest ih => exact Run.keeps_bind (keeps_of_inputs (setMode_inputs mode)) fun _ => ih
  | pushMode mode rest ih =>
    exact Run.keeps_bind (keeps_of_inputs (pushMode_inputs mode)) fun _ => ih
  | popMode rest ih => exact Run.keeps_bind (keeps_of_inputs popMode_inputs) fun _ => ih
  | inject text length rest ih => exact Run.keeps_bind (keeps_inject text length) fun _ => ih
  | includeFile name position atEnd rest ihEnd ih =>
    exact Run.keeps_bind (keeps_includeFile name position atEnd) fun full => ih full
  | addMacro definition rest ih => exact Run.keeps_bind (Run.keeps_modify fun _ h => h) fun _ => ih
  | report severity id text position data rest ih =>
    exact Run.keeps_bind (keeps_of_inputs (report_inputs severity id text position data)) fun _ =>
      ih
  | pushBack token rest ih =>
    exact Run.keeps_bind (keeps_of_inputs (pushBack_inputs token)) fun _ => ih
  | note label rest ih => exact Run.keeps_bind (Run.keeps_modify fun _ h => h) fun _ => ih
  | look rest ih => exact Run.keeps_get_bind fun t htraced => ih _ _ t htraced
  | fail fault => exact Run.keeps_fail fault
  | done kind value => exact Run.keeps_pure (kind, value)

/-- A call that was replaced is recorded in the history of its line. -/
theorem Replaces.traced {start : Nat} {r : Except Fault Unit}
    (htraced : t.Traced anchor) {s₀ : Stream} (hs : s₀.Traced anchor) (hc : s₀.cursor = some c)
    (h : Replaces t s₀.cleanup c start r t') : t'.Traced anchor := by
  obtain ⟨hopen, past, hhistory⟩ := hs
  have hclean : s₀.cleanup.Traced anchor := ⟨hopen, past, .cleaned hhistory⟩
  cases h with
  | replaced hrewritten hdepth hmoves =>
    exact htraced.moves hmoves ⟨hrewritten.isClosed.trans hopen, _,
      .replaced hhistory hc hrewritten⟩
  | overflow hdepth hlonger hmoves => exact htraced.moves hmoves (hclean.of_longer hc hlonger)
  | refused hid hlonger hmoves => exact htraced.moves hmoves (hclean.of_longer hc hlonger)
  | numeral hpos hlonger hmoves => exact htraced.moves hmoves (hclean.of_longer hc hlonger)

/-- At the end of a file the lines of the others are as they were. -/
theorem keeps_endOfInput : Run.Keeps (Traced anchor) endOfInput := by
  intro t htraced
  unfold endOfInput
  rw [Run.leaves_get_bind]
  split
  · exact htraced.of_inputs (errorAt_inputs ..)
  · split
    · next done parent below hinputs =>
      rw [Run.leaves_emit_bind, Run.leaves_bind, Run.leaves_set, Run.continues_ok]
      have hbelow : Traced anchor
          { t with inputs := { parent with saved := none } :: below, pending := parent.saved } := by
        intro input hinput
        rcases List.mem_cons.mp hinput with rfl | hinput
        · exact htraced parent (hinputs ▸ List.mem_cons_of_mem _ List.mem_cons_self)
        · exact htraced input (hinputs ▸ List.mem_cons_of_mem _ (List.mem_cons_of_mem _ hinput))
      refine (Run.keeps_discard (keeps_perform done.atEnd) _ hbelow).bind (fun _ t₁ hr => ?_)
        fun _ _ hr => hr
      rw [Run.leaves_get_bind]
      exact hr
    · exact htraced

/-- Each round of scanning adds to the history of a line, or begins a new one. -/
theorem keeps_scanRound : Run.Keeps (Traced anchor) scanRound := by
  intro t htraced
  cases hcurrent : t.current? with
  | none =>
    -- without an input there is nothing to scan
    unfold scanRound
    rw [Run.leaves_bind, leaves_onStream_of_none hcurrent]
    exact htraced
  | some s =>
    have hs := htraced.current hcurrent
    rw [scanRound_leaves hcurrent hs.1]
    cases hup : s.upcoming? with
    | none =>
      obtain ⟨hopen, past, hhistory⟩ := hs
      exact keeps_endOfInput _ (htraced.onto ⟨hopen, past, .ended hhistory⟩)
    | some s' =>
      obtain ⟨s₀, rfl, hs₀, c, hc⟩ := Stream.upcoming?_tidied hup
      have hs₀ : s₀.Traced anchor := by
        rcases hs₀ with rfl | rfl
        · exact hs
        · exact hs.atNextLine
      obtain ⟨hopen, past, hhistory⟩ := hs₀
      have hclean : s₀.cleanup.Traced anchor := ⟨hopen, past, .cleaned hhistory⟩
      have hthere : (t.onto s₀.cleanup).Traced anchor := htraced.onto hclean
      refine (scanAtCursor_leaves (current?_onto hcurrent s₀.cleanup) hopen hc).mono fun r t' hr =>
        ?_
      cases hr with
      | call hplan hreplaces => exact hreplaces.traced hthere ⟨hopen, past, hhistory⟩ hc
      | @token _ m _ hplan hroutine hmoves =>
        exact hthere.moves hmoves (hclean.of_longer hc (Stream.longer_seek _ c m.stop))
      | @routine _ m routine t₁ _ r hplan hroutine hmoves hperforms =>
        have hmoved :=
          hthere.moves hmoves (hclean.of_longer hc (Stream.longer_seek _ c m.stop))
        have hkeeps : (perform (routine m)).Leaves t₁ fun _ t' => t'.Traced anchor :=
          keeps_perform _ _ hmoved
        unfold Run.Leaves at hkeeps hperforms
        rw [hperforms.2] at hkeeps
        exact hkeeps
      | unmatched hplan hid hmoves => exact hthere.moves hmoves hclean

/-- So does a whole call for a token. -/
theorem keeps_next (rounds : Nat) : Run.Keeps (Traced anchor) (next rounds) := by
  refine Run.keeps_get_bind fun t htraced => ?_
  split
  · exact htraced
  · exact htraced
  · split
    · exact htraced
    · refine Run.repeated_keeps (Traced anchor) (fun t₁ h => ?_) (fun t₁ h => h) htraced rounds
      refine (keeps_scanRound t₁ h).mono fun r t₂ hr => ?_
      rcases r with fault | (_ | token) <;> exact hr

/-- The lines of a scanner have come about in some way in every state that it reaches. -/
theorem Reached.traced (h : Reached t₀ t) : t.Traced anchor := by
  induction h with
  | opened =>
    intro input hinput
    rw [List.mem_singleton.mp hinput]
    exact ⟨rfl, [], .unread rfl rfl⟩
  | next _ rounds ih => exact keeps_next rounds _ ih

-- ---------------------------------------------------------------------------
-- Too many expansions
-- ---------------------------------------------------------------------------

/-- A call for which there are too many open expansions has as many open in front of it
as are allowed. -/
theorem maxDepth_le_of_overflow {start : Nat} {m : Message} (hcurrent : t.current? = some s)
    (hopen : s.isClosed = false)
    (hup : s.upcoming? = some s') (hc : s'.cursor = some c) (hplan : plan t c = .call start)
    (hid : m.id = overflowId) (hresult : (scanRound.run t).result = .error (.parse m)) :
    t.maxDepth ≤ s'.expansions.length := by
  have hopen' : s'.isClosed = false := (Stream.isClosed_upcoming? hup).trans hopen
  have hscans : scanRound.Leaves t (Scans (t.onto s') s' c) := by
    rw [scanRound_leaves hcurrent hopen, hup]
    exact scanAtCursor_leaves (current?_onto hcurrent s') hopen' hc
  unfold Run.Leaves at hscans
  rw [hresult] at hscans
  have hplan' : plan (t.onto s') c = .call start := hplan
  generalize hr : (Except.error (Fault.parse m) : Except Fault (Option Token)) = r at hscans
  cases hscans with
  | call _ hreplaces =>
    cases hreplaces with
    | replaced => cases hr
    | overflow hdepth => exact hdepth
    | refused hid' =>
      cases hr
      exact absurd hid hid'
    | numeral => cases hr
  | token hplan'' => cases hplan'.symm.trans hplan''
  | routine hplan'' => cases hplan'.symm.trans hplan''
  | unmatched hplan'' => cases hplan'.symm.trans hplan''

/-- **Too many expansions** are open for a call only if as many are nested in one another as are
allowed, where what belongs to the token in front of a call counts as around it. Where no call of
the line has stood inside a token, the call itself lies in as many. -/
theorem overflow_nested {start : Nat} {m : Message}
    (h : Reached t₀ t) (hcurrent : t.current? = some s) (hup : s.upcoming? = some s')
    (hc : s'.cursor = some c) (hplan : plan t c = .call start) (hid : m.id = overflowId)
    (hresult : (scanRound.run t).result = .error (.parse m)) :
    (∀ anchor, ∃ past, s'.History anchor past) ∧
      (∀ past, s'.History .token past → t.maxDepth ≤ depthAt past c.pos) ∧
      ∀ past, s'.History .call past → start = c.pos → (∀ e ∈ past, e.inside = false) →
        t.maxDepth ≤ depthAt past start := by
  have htraced : s.Traced .token := h.traced.current hcurrent
  have hopen := maxDepth_le_of_overflow hcurrent htraced.1 hup hc hplan hid hresult
  have hdepth : ∀ past, s'.History .token past → t.maxDepth ≤ depthAt past c.pos :=
    fun past hhistory =>
    Nat.le_trans hopen (hhistory.length_le hup hc)
  refine ⟨fun anchor => ?_, hdepth, fun past hhistory hstart hstarts => ?_⟩
  · have hs : s.Traced anchor := h.traced.current hcurrent
    obtain ⟨s₀, rfl, rfl | rfl, -⟩ := Stream.upcoming?_tidied hup
    · obtain ⟨-, past, hhistory⟩ := hs
      exact ⟨past, .cleaned hhistory⟩
    · exact ⟨[], .cleaned (.line _)⟩
  · rw [hstart]
    exact hdepth past (hhistory.of_call hstarts)

-- ---------------------------------------------------------------------------
-- Two scanners
-- ---------------------------------------------------------------------------

/-- Where the call is that a plan is about. -/
def Plan.start? : Plan → Option Nat
  | .call start => some start
  | _ => none

/-- The place of a call is told by the plan for it. -/
theorem Plan.of_start? {p : Plan} {start : Nat} (h : p.start? = some start) : p = .call start := by
  unfold start? at h
  split at h
  · exact congrArg Plan.call (Option.some.inj h)
  · cases h

/-- Names of small letters and digits. -/
private def alphanumeric : TokenPattern :=
  ⟨some "ID", ⟨.repeated 1 none false (.oneOf false [.range 'a' 'z', .range '0' '9']), 0, {}⟩, none⟩

/-- A scanner that allows one open expansion. -/
private def shallow (text : String) (macros : List Macro) : Scanner :=
  { master := text
    lexicon := [(none, [alphanumeric])]
    defaultMode := none
    mode := none
    maxDepth := 1
    macros := ⟨macros⟩ }

/-- A scanner after its first round. -/
private def afterRound (t : Scanner) : Scanner := ((next 1).run ((start true).run t).state).state

/-- The current input, where there is one. -/
private def current (t : Scanner) : Stream := t.current?.getD default

/-- It is the current one indeed. -/
private theorem current?_of_isSome (h : t.current?.isSome = true) :
    t.current? = some (current t) := by
  obtain ⟨s, hs⟩ := Option.isSome_iff_exists.mp h
  unfold current
  rw [hs]
  rfl

/-- A cursor that is not at its end is scanned at. -/
private theorem upcoming?_of_ready (h : s.cursor.any (!·.atEnd) = true) :
    s.upcoming? = some s.cleanup := if_pos h

/-- The text of its macro calls the macro again. -/
private def looping : Scanner := shallow "$\x7bm\x7d" [⟨"m", "$\x7bm\x7d", none⟩]

/-- The second call is nested in the expansion of the first, and lies in it. -/
theorem overflow_nested_looping : ∃ m : Message, m.id = overflowId ∧
    (scanRound.run (afterRound looping)).result = .error (.parse m) ∧
    (∀ anchor, ∃ past, (current (afterRound looping)).cleanup.History anchor past) ∧
    (∀ past, (current (afterRound looping)).cleanup.History .token past → 1 ≤ depthAt past 0) ∧
    ∀ past, (current (afterRound looping)).cleanup.History .call past →
      (∀ e ∈ past, e.inside = false) → 1 ≤ depthAt past 0 := by
  have hcurrent : (afterRound looping).current? = some (current (afterRound looping)) :=
    current?_of_isSome (by decide +kernel)
  have hup : (current (afterRound looping)).upcoming? =
      some (current (afterRound looping)).cleanup :=
    upcoming?_of_ready (by decide +kernel)
  have hc : (current (afterRound looping)).cleanup.cursor = some ⟨"$\x7bm\x7d".toList, 0⟩ := by
    decide +kernel
  have hplan : plan (afterRound looping) ⟨"$\x7bm\x7d".toList, 0⟩ = .call 0 :=
    Plan.of_start? (by decide +kernel)
  have hoverflow : errorId? (scanRound.run (afterRound looping)).result = some overflowId := by
    decide +kernel
  obtain ⟨m, hid, hresult⟩ := of_errorId? hoverflow
  obtain ⟨hhistory, htoken, hcall⟩ :=
    overflow_nested (.next .opened 1) hcurrent hup hc hplan hid hresult
  exact ⟨m, hid, hresult, hhistory, htoken, fun past h => hcall past h rfl⟩

/-- Two calls stand in one token, and their macro has a text without calls. -/
private def siblings : Scanner := shallow "a$\x7bx\x7d$\x7bx\x7d" [⟨"x", "0", none⟩]

/-- The first of two sibling calls is recorded as one inside its token, and it is not nested. -/
private theorem history_siblings :
    (current (afterRound siblings)).History .call [⟨2, 1, true⟩] := by
  have hfirst : (current ((start true).run siblings).state).atNextLine.cursor =
      some ⟨"a$\x7bx\x7d$\x7bx\x7d".toList, 0⟩ := by
    decide +kernel
  have hrewritten : (current ((start true).run siblings).state).atNextLine.cleanup.Rewritten
      (current (afterRound siblings)) ⟨"a$\x7bx\x7d$\x7bx\x7d".toList, 0⟩ 1 4 [] ['0'] :=
    ⟨by decide +kernel, by decide +kernel, by decide, by decide +kernel, by decide +kernel,
      by decide +kernel⟩
  exact .replaced (.line (current ((start true).run siblings).state)) hfirst hrewritten

/-- Expansions need not be nested for there to be too many: the second call of a token lies in none,
and the macro has no call in its text. -/
theorem not_nested_siblings : (∀ m ∈ siblings.macros.macros, '$' ∉ m.value.toList) ∧
    ∃ t s s' c start m past,
      Reached siblings t ∧ t.current? = some s ∧ s.upcoming? = some s' ∧ s'.cursor = some c ∧
      plan t c = .call start ∧ m.id = overflowId ∧ (scanRound.run t).result = .error (.parse m) ∧
      s'.History .call past ∧ depthAt past start < t.maxDepth := by
  have hoverflow : errorId? (scanRound.run (afterRound siblings)).result = some overflowId := by
    decide +kernel
  obtain ⟨m, hid, hresult⟩ := of_errorId? hoverflow
  refine ⟨by decide +kernel, afterRound siblings, _, _, ⟨"a0$\x7bx\x7d".toList, 0⟩, 2, m,
    [⟨2, 1, true⟩], .next .opened 1, current?_of_isSome (by decide +kernel),
    upcoming?_of_ready (by decide +kernel), by decide +kernel,
    Plan.of_start? (by decide +kernel), hid, hresult, .cleaned history_siblings, by decide +kernel⟩

end Scanner

end GrammarEngine
