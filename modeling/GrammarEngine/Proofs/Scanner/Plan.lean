import GrammarEngine.Proofs.Scanner.Rounds

/-!
# What a scan does

A round of scanning looks at the text at the cursor first, and there are three things that it may
come upon (`plan`): a call that must be replaced before anything else, a token, or neither. Then it
does that (`Scans`). The call is at the cursor or inside of the longest match; in either case it is
the first one from the cursor on, and the next round begins where this one did (`Replaces`).

Main results:

* `callBegins_of_plan_call` — the call that is replaced is the first one.
* `replaceCall_leaves`, `replaceCallAt_leaves` — what replacing a call leaves.
* `scanAtCursor_leaves`, `scanRound_leaves` — what a scan leaves, and a whole round.
* `Reached` — the states that calls for tokens lead to.
-/

namespace GrammarEngine

-- ---------------------------------------------------------------------------
-- A text in the place of a call
-- ---------------------------------------------------------------------------

namespace Stream

/-- Where the open expansions end, the innermost first. -/
def ends (s : Stream) : List Int := s.expansions.map Expansion.stop

/-- Where an expansion ends that ended at `stop`, once the line has grown from `start` on. -/
def endAfter (start : Nat) (growth stop : Int) : Int :=
  if (start : Int) < stop then stop + growth else stop

/-- Where the text ends that is put in at a place. An empty text is over at once, and has no
end of its own. -/
def newEnds (start : Nat) (text : List Char) : List Int :=
  if text = [] then [] else [((start + text.length : Nat) : Int)]

/-- Replacing text moves the ends that lie behind. -/
theorem ends_replaced (s : Stream) (c : Cursor) (text : List Char) (length : Nat) :
    (s.replaced c text length).ends =
      s.ends.map (endAfter (c.pos - length) (text.length - length)) := by
  unfold ends replaced
  rw [List.map_map, List.map_map]
  exact List.map_congr_left fun e _ => e.shift_stop _ _

/-- Opening an expansion adds its end, in front of the others. -/
theorem ends_opened (s : Stream) (c : Cursor) (definition : Macro) (args : List String)
    {text : String} (length : Nat) (htext : text ≠ "") :
    (s.opened c definition args text length).ends =
      newEnds (c.pos - length) text.toList ++
        s.ends.map (endAfter (c.pos - length) (text.toList.length - length)) := by
  have htext' : text.toList ≠ [] := fun hnil => htext (String.toList_eq_nil_iff.mp hnil)
  unfold newEnds
  rw [if_neg htext', ← ends_replaced]
  rfl

/-- A stream in which the call of `length` characters at `start` has been replaced by a text. For
the call some of the text that was not yet read has been added to the line. The cursor stands
where it stood. -/
structure Rewritten (s s' : Stream) (c : Cursor) (start length : Nat)
    (more text : List Char) : Prop where
  unread : s.unread = more ++ s'.unread
  isClosed : s'.isClosed = s.isClosed
  length_pos : 0 < length
  fits : start + length ≤ (c.line ++ more).length
  cursor : s'.cursor =
    some ⟨(c.line ++ more).take start ++ text ++ (c.line ++ more).drop (start + length), c.pos⟩
  ends : s'.ends = newEnds start text ++ s.ends.map (endAfter start (text.length - length))

/-- It does not matter where the cursor stands. -/
theorem Rewritten.seek {s s' : Stream} {c : Cursor} {start length : Nat} {more text : List Char}
    (h : s.Rewritten s' c start length more text) (pos : Nat) :
    s.Rewritten { s' with cursor := some (Cursor.seek pos
      ⟨(c.line ++ more).take start ++ text ++ (c.line ++ more).drop (start + length), c.pos⟩) }
      (c.seek pos) start length more text :=
  ⟨h.unread, h.isClosed, h.length_pos, h.fits, rfl, h.ends⟩

end Stream

namespace Scanner

variable {t t' t'' : Scanner} {s s' : Stream} {c : Cursor}

/-- What replacing the call at `start` leaves, which the scan at a cursor has come upon. -/
inductive Replaces (t : Scanner) (s : Stream) (c : Cursor) (start : Nat) :
    Except Fault Unit → Scanner → Prop
  | replaced {t' : Scanner} {s' : Stream} {length : Nat} {more text : List Char}
      (hrewritten : s.Rewritten s' c start length more text)
      (hdepth : text ≠ [] → s.expansions.length < t.maxDepth)
      (hmoves : Moves t t' s') : Replaces t s c start (.ok ()) t'
  | overflow {t' : Scanner} {s' : Stream} {pos : Nat} {more : List Char} {m : Message}
      (hdepth : t.maxDepth ≤ s.expansions.length) (hlonger : s.Longer s' (c.seek pos) more)
      (hmoves : Moves t t' s') : Replaces t s c start (.error (.parse m)) t'
  | refused {t' : Scanner} {s' : Stream} {pos : Nat} {more : List Char} {m : Message}
      (hid : m.id ≠ overflowId) (hlonger : s.Longer s' (c.seek pos) more) (hmoves : Moves t t' s') :
      Replaces t s c start (.error (.parse m)) t'
  | numeral {t' : Scanner} {s' : Stream} {pos : Nat} {more : List Char} (hpos : start < pos)
      (hlonger : s.Longer s' (c.seek pos) more) (hmoves : Moves t t' s') :
      Replaces t s c start (.error .badNumeral) t'

/-- Replaces the call at the cursor. -/
def replaceCall : Run Scanner Unit := do expandCall (← readCall)

/-- **Replacing the call at the cursor** puts a text in its place, or is refused. -/
theorem replaceCall_leaves (h : t.current? = some s) (hopen : s.isClosed = false)
    (hc : s.cursor = some c) : replaceCall.Leaves t (Replaces t s c c.pos) := by
  unfold replaceCall
  refine (readCall_leaves h hopen hc).bind (fun call t₁ hr => ?_) fun fault t₁ hr => ?_
  · cases hr with
    | @read _ s₁ more call hlonger hread hmoves =>
    have hlength : call.length ≤ (c.append more).rest.length := Call.length_le hread
    have hpos := Call.length_pos hread
    have hfits : c.pos + call.length ≤ (c.line ++ more).length := by
      have hle : c.pos ≤ (c.line ++ more).length := by
        by_contra hgt
        rw [Cursor.rest, Cursor.append,
          List.drop_eq_nil_of_le (Nat.le_of_lt (Nat.lt_of_not_le hgt))] at hlength
        exact absurd hlength (Nat.not_le_of_lt hpos)
      have hrest : (c.append more).rest.length = (c.line ++ more).length - c.pos := List.length_drop
      omega
    -- the cursor stands behind the call
    let behind := (c.append more).seek (c.pos + call.length)
    let s₂ := { s₁ with cursor := some behind }
    have hbehind : s.Longer s₂ (c.seek (c.pos + call.length)) more :=
      ⟨hlonger.unread, hlonger.expansions, hlonger.isClosed, rfl⟩
    have hstart : behind.pos - call.length = c.pos := Nat.add_sub_cancel ..
    have hends : s₂.ends = s.ends := congrArg (List.map Expansion.stop) hlonger.expansions
    have hrewritten : ∀ (s' : Stream) (text : List Char), s₁.unread = s'.unread →
        s₁.isClosed = s'.isClosed → s'.cursor = some (behind.splice call.length text) →
        s'.ends = Stream.newEnds c.pos text ++ s.ends.map (Stream.endAfter c.pos
          (text.length - call.length)) →
        s.Rewritten s' c c.pos call.length more text := by
      intro s' text hunread hclosed hcursor hends
      refine ⟨hlonger.unread.trans (congrArg _ hunread), hclosed.symm.trans hlonger.isClosed, hpos,
        hfits, ?_, hends⟩
      rw [hcursor]
      unfold behind Cursor.splice Cursor.seek Cursor.append
      dsimp only
      rw [Nat.add_sub_cancel]
    refine (expandCall_leaves (hmoves.current h) rfl call).mono fun r t₂ hr => ?_
    cases hr with
    | dropped hmoves' =>
      refine .replaced (hrewritten (s₂.replaced behind [] call.length) [] rfl rfl rfl ?_)
        (absurd rfl) (hmoves.trans hmoves')
      rw [Stream.ends_replaced, hstart, hends]
      rfl
    | @opened _ definition text htext hdepth hmoves' =>
      let s₃ := s₂.opened behind definition (call.name :: call.args) text call.length
      refine .replaced (hrewritten s₃ text.toList rfl rfl rfl ?_) (fun _ => ?_)
        (hmoves.trans hmoves')
      · rw [Stream.ends_opened _ _ _ _ _ htext, hstart, hends]
      · rw [← hmoves.setting.maxDepth, ← hlonger.expansions]
        exact hdepth
    | overflow hdepth hmoves' =>
      rw [hmoves.setting.maxDepth] at hdepth
      exact .overflow (hlonger.expansions ▸ hdepth) hbehind (hmoves.trans hmoves')
    | undefined hid hmoves' => exact .refused hid hbehind (hmoves.trans hmoves')
    | numeral hmoves' =>
      exact .numeral (Nat.lt_add_of_pos_right hpos) hbehind (hmoves.trans hmoves')
  · cases hr with
    | refused hlonger hid hmoves => exact .refused hid hlonger hmoves

/-- Moving the cursor first makes no difference. -/
theorem Replaces.of_seek {c₁ : Option Cursor} {start : Nat} {r : Except Fault Unit}
    (hthere : Moves t t' { s with cursor := c₁ })
    (h : Replaces t' { s with cursor := c₁ } c start r t'') : Replaces t s c start r t'' := by
  have hdepth := hthere.setting.maxDepth
  have hlonger : ∀ {s' : Stream} {pos : Nat} {more : List Char},
      { s with cursor := c₁ }.Longer s' (c.seek pos) more → s.Longer s' (c.seek pos) more :=
        fun hlonger =>
    ⟨hlonger.unread, hlonger.expansions, hlonger.isClosed, hlonger.cursor⟩
  cases h with
  | replaced h' hless hmoves =>
    exact .replaced ⟨h'.unread, h'.isClosed, h'.length_pos, h'.fits, h'.cursor, h'.ends⟩
      (hdepth ▸ hless) (hthere.trans hmoves)
  | overflow hle h' hmoves => exact .overflow (hdepth ▸ hle) (hlonger h') (hthere.trans hmoves)
  | refused hid h' hmoves => exact .refused hid (hlonger h') (hthere.trans hmoves)
  | numeral hpos h' hmoves => exact .numeral hpos (hlonger h') (hthere.trans hmoves)

/-- Replaces the call at a place of the line, and goes to another place. -/
def replaceCallAt (start back : Nat) : Run Scanner Unit := do
  onStream (Stream.seek start)
  replaceCall
  onStream (Stream.seek back)

/-- So does replacing a call inside a match, after which the cursor is back. -/
theorem replaceCallAt_leaves (h : t.current? = some s) (hopen : s.isClosed = false)
    (hc : s.cursor = some c) (start back : Nat) :
    (replaceCallAt start back).Leaves t (Replaces t s (c.seek back) start) := by
  unfold replaceCallAt
  rw [Run.leaves_bind, leaves_onStream h, Stream.leaves_seek hc, Run.continues_ok]
  have hthere : Moves t (t.onto { s with cursor := some (c.seek start) })
      { s with cursor := some (c.seek start) } :=
    moves_onto ..
  have hcurrent := hthere.current h
  refine (replaceCall_leaves hcurrent hopen rfl).bind (fun _ t₁ hr => ?_) fun fault t₁ hr => ?_
  · cases hr with
    | @replaced _ s' _ _ _ h' hdepth hmoves =>
    rw [leaves_onStream (hmoves.current hcurrent), Stream.leaves_seek h'.cursor]
    exact .of_seek hthere (.replaced (h'.seek back) hdepth (hmoves.trans (moves_onto t₁ _)))
  · refine .of_seek hthere ?_
    cases hr with
    | overflow hdepth h' hmoves => exact .overflow hdepth h' hmoves
    | refused hid h' hmoves => exact .refused hid h' hmoves
    | numeral hpos h' hmoves => exact .numeral hpos h' hmoves

-- ---------------------------------------------------------------------------
-- The plan of a scan
-- ---------------------------------------------------------------------------

/-- What a scan at a cursor comes upon: a call that has to be replaced first, a token, or
nothing at all. -/
inductive Plan where
  | call (start : Nat)
  | token (p : TokenPattern) (m : Match)
  | nothing

/-- What the scan of a scanner comes upon at a cursor. -/
def plan (t : Scanner) (c : Cursor) : Plan :=
  if t.callsMacros && callBegins c then .call c.pos
  else
    match firstMatch? ((t.lexicon.patterns? t.mode).getD []) c with
    | none => .nothing
    | some (p, m) =>
      if p.isSkipped || !t.callsMacros then .token p m
      else
        match Call.findStart? c.previous? c.rest (m.stop - c.pos) with
        | none => .token p m
        | some offset => .call (c.pos + offset)

/-- A token is planned by a pattern of the mode that matches there. -/
theorem mem_of_plan_token {p : TokenPattern} {m : Match} (h : plan t c = .token p m) :
    p ∈ (t.lexicon.patterns? t.mode).getD [] ∧ p.regex.matchAt c.line c.pos = some m := by
  have hmatch : firstMatch? ((t.lexicon.patterns? t.mode).getD []) c = some (p, m) := by
    unfold plan at h
    split at h
    · cases h
    · split at h
      · cases h
      · next hmatch =>
        split at h
        · cases h
          exact hmatch
        · split at h
          · cases h
            exact hmatch
          · cases h
  unfold firstMatch? at hmatch
  obtain ⟨q, hq, hmatch⟩ := List.exists_of_findSome?_eq_some hmatch
  obtain ⟨m', hm, heq⟩ := Option.map_eq_some_iff.mp hmatch
  obtain ⟨rfl, rfl⟩ := Prod.mk.inj heq
  exact ⟨hq, hm⟩

/-- The call that is to be replaced is the first one, seen from the cursor. -/
theorem callBegins_of_plan_call {start : Nat} (h : plan t c = .call start) :
    c.pos ≤ start ∧ callBegins ⟨c.line, start⟩ = true ∧
      ∀ k, c.pos ≤ k → k < start → callBegins ⟨c.line, k⟩ = false := by
  unfold plan at h
  split at h
  · next hbegins =>
    cases h
    rw [Bool.and_eq_true] at hbegins
    exact ⟨Nat.le_refl _, hbegins.2, fun k hle hlt => absurd hlt (Nat.not_lt_of_le hle)⟩
  · split at h
    · cases h
    · split at h
      · cases h
      · split at h
        · cases h
        · next offset hfind =>
          cases h
          obtain ⟨-, hbegins, hnone⟩ := findStart?_eq_some_iff.mp hfind
          refine ⟨Nat.le_add_right .., hbegins, fun k hle hlt => ?_⟩
          obtain ⟨i, rfl⟩ := Nat.exists_eq_add_of_le hle
          exact hnone i (Nat.lt_of_add_lt_add_left hlt)

-- ---------------------------------------------------------------------------
-- Scanning
-- ---------------------------------------------------------------------------

/-- What scanning at a cursor leaves. -/
inductive Scans (t : Scanner) (s : Stream) (c : Cursor) :
    Except Fault (Option Token) → Scanner → Prop
  | call {start : Nat} {r : Except Fault Unit} {t' : Scanner} (hplan : plan t c = .call start)
      (hreplaces : Replaces t s c start r t') : Scans t s c (r.map fun _ => none) t'
  | token {p : TokenPattern} {m : Match} {t' : Scanner}
      (hplan : plan t c = .token p m) (hroutine : p.routine = none)
      (hmoves : Moves t t' { s with cursor := some (c.seek m.stop) }) :
      Scans t s c (.ok (p.kind.map (⟨·, .text m.text, some t.position⟩))) t'
  | routine {p : TokenPattern} {m : Match} {routine : Match → Routine} {t₁ t' : Scanner}
      {r : Except Fault (Option String × Value)}
      (hplan : plan t c = .token p m) (hroutine : p.routine = some routine)
      (hmoves : Moves t t₁ { s with cursor := some (c.seek m.stop) })
      (hperforms : (perform (routine m)).Leaves t₁ fun r' t'' => r' = r ∧ t'' = t') :
      Scans t s c (r.map fun made => made.1.map (⟨·, made.2, some t.position⟩)) t'
  | unmatched {m : Message} {t' : Scanner} (hplan : plan t c = .nothing) (hid : m.id ≠ overflowId)
      (hmoves : Moves t t' s) : Scans t s c (.error (.parse m)) t'

/-- Text that is not matched is reported as one of two errors at the cursor. -/
theorem reportUnmatched_leaves_of (h : t.current? = some s) (hopen : s.isClosed = false)
    (hc : s.cursor = some c) {Q : Except Fault Unit → Scanner → Prop}
    (herror : ∀ id ∈ ["unexpected_eof", "no_token_match"], ∀ text, (error id text).Leaves t Q) :
    reportUnmatched.Leaves t Q := by
  unfold reportUnmatched
  rw [Run.leaves_bind, leaves_onStream h, Stream.leaves_theCursor hc, Run.continues_ok,
    onto_current h, Run.leaves_bind, leaves_onStream h]
  unfold Stream.isReadUp
  rw [Run.leaves_get_bind, hopen, if_neg Bool.false_ne_true, Run.leaves_pure, Run.continues_ok,
    onto_current h]
  split
  · exact herror _ (by decide) _
  · exact herror _ (by decide) _

/-- Nothing else happens. -/
theorem leaves_reportUnmatched (h : t.current? = some s) (hopen : s.isClosed = false)
    (hc : s.cursor = some c) :
    reportUnmatched.Leaves t fun r t' =>
      ∃ m : Message, m.id ≠ overflowId ∧ r = .error (.parse m) ∧ Moves t t' s := by
  have hother : ∀ id ∈ ["unexpected_eof", "no_token_match"], id ≠ overflowId := by decide
  exact reportUnmatched_leaves_of h hopen hc fun id hid _ => leaves_refusal (hother id hid) h

/-- Where a call begins at the cursor it is replaced. -/
theorem expandAtCursor_of_call (h : t.current? = some s) (hc : s.cursor = some c)
    (hbegins : (t.callsMacros && callBegins c) = true) {Q : Except Fault Bool → Scanner → Prop} :
    expandAtCursor.Leaves t Q ↔ replaceCall.Leaves t fun r t' => Q (r.map fun _ => true) t' := by
  unfold expandAtCursor replaceCall
  rw [Run.leaves_get_bind, h, Option.bind_some, hc]
  dsimp only
  rw [if_pos hbegins, ← bind_assoc, Run.leaves_then_pure]

/-- That is all that is done there. -/
theorem discard_expandAtCursor_of_call (h : t.current? = some s) (hc : s.cursor = some c)
    (hbegins : (t.callsMacros && callBegins c) = true) {Q : Except Fault Unit → Scanner → Prop} :
    (discard expandAtCursor).Leaves t Q ↔ replaceCall.Leaves t Q := by
  rw [Run.leaves_discard, expandAtCursor_of_call h hc hbegins]
  unfold Run.Leaves
  cases (replaceCall.run t).result <;> exact Iff.rfl

/-- Where none begins nothing is done. -/
theorem expandAtCursor_of_no_call (h : t.current? = some s) (hc : s.cursor = some c)
    (hnone : (t.callsMacros && callBegins c) = false) {Q : Except Fault Bool → Scanner → Prop} :
    expandAtCursor.Leaves t Q ↔ Q (.ok false) t := by
  unfold expandAtCursor
  rw [Run.leaves_get_bind, h, Option.bind_some, hc]
  dsimp only
  rw [hnone]
  exact Run.leaves_pure

/-- A call inside a match is looked for, and replaced with the cursor moved there and back. -/
theorem leaves_expandInMatch (h : t.current? = some s) (hc : s.cursor = some c) (start : Nat)
    (m : Match) {Q : Except Fault Bool → Scanner → Prop} :
    (expandInMatch start m).Leaves t Q ↔
      match if t.callsMacros then
        Call.findStart? (Cursor.previous? (c.seek start)) (c.seek start).rest (m.stop - start)
            else none with
      | none => Q (.ok false) t
      | some offset =>
        (replaceCallAt (start + offset) start).Leaves t fun r t' => Q (r.map fun _ => true) t' := by
  unfold expandInMatch
  rw [Run.leaves_get_bind]
  cases hcalls : t.callsMacros with
  | false => exact Run.leaves_pure
  | true =>
    rw [if_neg (by decide), if_pos rfl, Run.leaves_bind, leaves_onStream h,
      Stream.leaves_theCursor hc, Run.continues_ok, onto_current h]
    show Run.Leaves (match Call.findStart? (Cursor.previous? (c.seek start)) (c.seek start).rest
        (m.stop - start) with
      | none => pure false
      | some offset => _) t Q ↔ _
    cases hfind : Call.findStart? (Cursor.previous? (c.seek start)) (c.seek start).rest
        (m.stop - start) with
    | none => exact Run.leaves_pure
    | some offset =>
      -- the call is at the cursor, once the scanner has gone there
      obtain ⟨-, hbegins, -⟩ := findStart?_eq_some_iff.mp hfind
      have hthere := current?_onto h { s with cursor := some (c.seek (start + offset)) }
      have hcall : ((t.onto { s with cursor := some (c.seek (start + offset)) }).callsMacros &&
          callBegins (c.seek (start + offset))) = true := Bool.and_eq_true_iff.mpr ⟨hcalls, hbegins⟩
      dsimp only
      unfold replaceCallAt
      rw [Run.leaves_bind, Run.leaves_bind, leaves_onStream h, leaves_onStream h,
        Stream.leaves_seek hc, Stream.leaves_seek hc, Run.continues_ok, Run.continues_ok,
        Run.leaves_bind, discard_expandAtCursor_of_call hthere rfl hcall, ← Run.leaves_bind,
        ← bind_assoc, Run.leaves_then_pure]

/-- Makes the token of a match. -/
def produce (p : TokenPattern) (m : Match) (start : Position) : Run Scanner (Option Token) := do
  let (kind, value) ← match p.routine with
    | some routine => perform (routine m)
    | none => pure (p.kind, Value.text m.text)
  pure (kind.map (⟨·, value, some start⟩))

/-- **The token** is made by the routine of its pattern, or of the text. -/
theorem produce_leaves {p : TokenPattern} {m : Match} (hplan : plan t c = .token p m)
    (hmoves : Moves t t' { s with cursor := some (c.seek m.stop) }) :
    (produce p m t.position).Leaves t' (Scans t s c) := by
  unfold produce
  cases hroutine : p.routine with
  | none => exact .token hplan hroutine hmoves
  | some routine =>
    dsimp only
    rw [Run.leaves_bind]
    have hmade : (perform (routine m)).Leaves t' fun r t'' =>
        Scans t s c (r.map fun made => made.1.map (⟨·, made.2, some t.position⟩)) t'' :=
      .routine hplan hroutine hmoves ⟨rfl, rfl⟩
    refine hmade.mono fun r t'' hr => ?_
    cases r with
    | ok made => exact hr
    | error fault => exact hr

/-- A scanner that has noted where the token begins. -/
abbrev noting (t : Scanner) : Scanner := { t with tokenStart := some t.position }

/-- Noting the start of a token moves nothing. -/
theorem moves_noting (h : t.current? = some s) : Moves t t.noting s :=
  ⟨⟨rfl, rfl, rfl, rfl, rfl, rfl, rfl⟩, rfl, rfl, (Moves.refl h).inputs⟩

/-- Scanning at the cursor goes by its plan. It suffices to look at the part of the scan that the
plan is about. -/
theorem scanAtCursor_leaves_of (h : t.current? = some s) (hc : s.cursor = some c)
    {Q : Except Fault (Option Token) → Scanner → Prop}
    (hhere : plan t c = .call c.pos → replaceCall.Leaves t.noting fun r t' =>
      Q (r.map fun _ => none) t') (hinside : ∀ start stop, plan t c = .call start →
      (replaceCallAt start c.pos).Leaves (t.noting.onto
      { s with cursor := some (c.seek stop) }) fun r t' =>
        Q (r.map fun _ => none) t')
    (htoken : ∀ p m, plan t c = .token p m →
      (produce p m t.position).Leaves (t.noting.onto { s with cursor := some (c.seek m.stop) }) Q)
    (hnothing : plan t c = .nothing →
      reportUnmatched.Leaves t.noting fun r t' => Q (r.map fun _ => none) t') :
    scanAtCursor.Leaves t Q := by
  have h₀ : t.noting.current? = some s := (moves_noting h).current h
  unfold scanAtCursor
  rw [Run.leaves_modify_bind, Run.leaves_get_bind, Run.leaves_bind]
  cases hbegins : (t.callsMacros && callBegins c) with
  | true =>
    -- a call is at the cursor
    rw [expandAtCursor_of_call h₀ hc hbegins]
    refine (hhere (if_pos hbegins)).mono fun r t' hr => ?_
    cases r with
    | ok u => exact hr
    | error fault => exact hr
  | false =>
    rw [expandAtCursor_of_no_call h₀ hc hbegins, Run.continues_ok, if_neg Bool.false_ne_true,
      Run.leaves_get_bind, Run.leaves_bind, leaves_onStream h₀, Stream.leaves_theCursor hc,
      Run.continues_ok, onto_current h₀]
    have hplan : plan t c = match firstMatch? ((t.lexicon.patterns? t.mode).getD []) c with
        | none => .nothing
        | some (p, m) =>
          if p.isSkipped || !t.callsMacros then .token p m
          else
            match Call.findStart? c.previous? c.rest (m.stop - c.pos) with
            | none => .token p m
            | some offset => .call (c.pos + offset) := if_neg (Bool.eq_false_iff.mp hbegins)
    dsimp only
    cases hmatch : firstMatch? ((t.lexicon.patterns? t.mode).getD []) c with
    | none =>
      rw [hmatch] at hplan
      exact (hnothing hplan).bind (fun _ t' hr => hr) fun fault t' hr => hr
    | some found =>
      obtain ⟨p, m⟩ := found
      rw [hmatch] at hplan
      dsimp only at hplan ⊢
      rw [Run.leaves_bind, leaves_onStream h₀, Stream.leaves_seek hc, Run.continues_ok]
      have hthere := current?_onto h₀ { s with cursor := some (c.seek m.stop) }
      have hmake := htoken p m
      cases hskipped : p.isSkipped with
      | true =>
        rw [hskipped] at hplan
        exact hmake hplan
      | false =>
        rw [if_neg Bool.false_ne_true, Run.leaves_bind, leaves_expandInMatch hthere rfl]
        rw [hskipped, Bool.false_or] at hplan
        have hcalls : (t.noting.onto { s with cursor := some (c.seek m.stop) }).callsMacros =
            t.callsMacros := rfl
        rw [hcalls]
        cases hmacros : t.callsMacros with
        | false =>
          rw [hmacros] at hplan
          exact hmake hplan
        | true =>
          rw [hmacros, if_neg (by decide)] at hplan
          rw [if_pos rfl]
          show match Call.findStart? c.previous? c.rest (m.stop - c.pos) with
            | none => _
            | some offset => _
          cases hfind : Call.findStart? c.previous? c.rest (m.stop - c.pos) with
          | none =>
            rw [hfind] at hplan
            exact hmake hplan
          | some offset =>
            rw [hfind] at hplan
            refine (hinside (c.pos + offset) m.stop hplan).mono fun r t' hr => ?_
            cases r with
            | ok u => exact hr
            | error fault => exact hr

/-- **Scanning at the cursor** does what its plan says. -/
theorem scanAtCursor_leaves (h : t.current? = some s) (hopen : s.isClosed = false)
    (hc : s.cursor = some c) : scanAtCursor.Leaves t (Scans t s c) := by
  have hstart : Moves t t.noting s := moves_noting h
  have h₀ := hstart.current h
  refine scanAtCursor_leaves_of h hc (fun hplan => ?_) (fun start stop hplan => ?_)
    (fun p m hplan => ?_) fun hplan => ?_
  · exact (replaceCall_leaves h₀ hopen hc).mono fun r t' hr => .call hplan (.of_seek hstart hr)
  · have hthere := hstart.trans (moves_onto t.noting { s with cursor := some (c.seek stop) })
    exact (replaceCallAt_leaves (hthere.current h) hopen rfl start c.pos).mono fun r t' hr =>
      .call hplan (.of_seek hthere hr)
  · exact produce_leaves hplan (hstart.trans (moves_onto ..))
  · refine (leaves_reportUnmatched h₀ hopen hc).mono fun r t' hr => ?_
    obtain ⟨m, hid, rfl, hmoves⟩ := hr
    exact .unmatched hplan hid (hstart.trans hmoves)

/-- A scanner with one input makes the end token at its end, or reports that a token was
not finished. -/
theorem endOfInput_leaves {input : Input} (hinputs : t.inputs = [input]) :
    endOfInput.Leaves t fun r t' =>
    t'.inputs = t.inputs ∧ t'.maxDepth = t.maxDepth ∧ ((∃ token : Token, token.isEnd = true ∧
        r = .ok (some token) ∧ t'.pending = t.pending ∧ t'.ended = some token) ∨
      (t.mode ≠ t.defaultMode ∧ ∃ m : Message, m.id ≠ overflowId ∧ r = .error (.parse m))) := by
  have hcurrent := current?_of_inputs hinputs
  unfold endOfInput
  rw [Run.leaves_get_bind]
  split
  · next hmode =>
    rw [bne_iff_ne] at hmode
    dsimp only
    rw [Run.leaves_bind, Run.leaves_set, Run.continues_ok]
    have hid : "runaway_token" ≠ overflowId := by decide
    refine (leaves_refusal hid (s := input.stream) ?_).mono fun r t' hr => ?_
    · exact hcurrent
    obtain ⟨m, hid, hr, hmoves⟩ := hr
    refine ⟨?_, hmoves.setting.maxDepth, .inr ⟨hmode, m, hid, hr⟩⟩
    rw [hmoves.inputs]
    exact (Moves.refl hcurrent).inputs.symm
  · rw [hinputs]
    exact ⟨rfl, rfl, .inl ⟨_, Token.isEnd_endOfInput _, rfl, rfl, rfl⟩⟩

end Scanner

/-- The stream when the next token is scanned: at the cursor, or else in the next line, if
there is one. -/
def Stream.upcoming? (s : Stream) : Option Stream :=
  if s.cursor.any (!·.atEnd) then some s.cleanup
  else if s.unread = [] then none else some s.atNextLine.cleanup

/-- Going on to the next line does not close a stream. -/
theorem Stream.isClosed_upcoming? {s s' : Stream} (h : s.upcoming? = some s') :
    s'.isClosed = s.isClosed := by
  unfold upcoming? at h
  split at h
  · cases h
    rfl
  · split at h
    · cases h
    · cases h
      rfl

namespace Scanner

variable {t t₀ : Scanner} {s : Stream}

/-- A round scans at the cursor of the line that is next, or is about the end of the input. -/
theorem scanRound_leaves (h : t.current? = some s) (hopen : s.isClosed = false)
    {Q : Except Fault (Option Token) → Scanner → Prop} : scanRound.Leaves t Q ↔
      match s.upcoming? with
      | some s' => scanAtCursor.Leaves (t.onto s') Q
      | none => endOfInput.Leaves (t.onto { s with cursor := none }) Q := by
  -- the stream is tidied before the scan
  have hscan : ∀ s',
      (onStream (Run.modify Stream.cleanup) >>= fun _ => scanAtCursor).Leaves (t.onto s') Q ↔
      scanAtCursor.Leaves (t.onto s'.cleanup) Q := by
    intro s'
    rw [Run.leaves_bind, leaves_onStream (current?_onto h s'), Run.leaves_modify, Run.continues_ok]
    unfold onto
    cases t.inputs <;> exact Iff.rfl
  unfold scanRound Stream.upcoming?
  rw [Run.leaves_bind, leaves_onStream h, Stream.leaves_readyNextLine hopen]
  split
  · rw [Run.continues_ok, if_pos rfl, hscan]
  · split
    · rw [Run.continues_ok, if_neg Bool.false_ne_true]
    · rw [Run.continues_ok, if_pos rfl, hscan]

/-- The message of an error in the input. -/
def raised? {α : Type} : Except Fault α → Option Message
  | .error (.parse m) => some m
  | _ => none

/-- What is seen of the message of an error is so of an error. -/
theorem of_raised? {α β : Type} {r : Except Fault α} {f : Message → β} {b : β}
    (h : (raised? r).map f = some b) : ∃ m : Message, f m = b ∧ r = .error (.parse m) := by
  obtain ⟨m, hm, hb⟩ := Option.map_eq_some_iff.mp h
  unfold raised? at hm
  split at hm
  · cases hm
    exact ⟨m, hb, rfl⟩
  · cases hm

/-- The identifier of an error in the input. -/
def errorId? {α : Type} (r : Except Fault α) : Option String := (raised? r).map Message.id

/-- An error is known by its identifier. -/
theorem of_errorId? {α : Type} {r : Except Fault α} {id : String} (h : errorId? r = some id) :
    ∃ m : Message, m.id = id ∧ r = .error (.parse m) := of_raised? h

/-- The stream that a scanner scans the next token in. -/
def upcoming (t : Scanner) : Stream := (t.current?.bind Stream.upcoming?).getD default

/-- The stream that a token is scanned in is that of the current input. -/
theorem upcoming?_of_isSome (h : (t.current?.bind Stream.upcoming?).isSome = true) :
    ∃ s, t.current? = some s ∧ s.upcoming? = some t.upcoming := by
  obtain ⟨s', hs'⟩ := Option.isSome_iff_exists.mp h
  obtain ⟨s, hcurrent, hup⟩ := Option.bind_eq_some_iff.mp hs'
  refine ⟨s, hcurrent, ?_⟩
  unfold upcoming
  rw [hs', hup]
  rfl

-- ---------------------------------------------------------------------------
-- The states of a scanner
-- ---------------------------------------------------------------------------

/-- The states of a scanner once it has been opened to read its text: it is called for tokens, and
given any number of rounds each time. -/
inductive Reached (t₀ : Scanner) : Scanner → Prop
  | opened : Reached t₀ ((start true).run t₀).state
  | next {t : Scanner} (h : Reached t₀ t) (rounds : Nat) : Reached t₀ ((next rounds).run t).state

/-- Where no token is at hand, the next one is scanned. -/
theorem next_run (hpending : t.pending = none) (hended : t.ended = none) (hinputs : t.inputs ≠ [])
    (rounds : Nat) : (next rounds).run t = (Run.repeated scanRound rounds).run t := by
  have hopen : t.inputs.isEmpty = false := List.isEmpty_eq_false_iff.mpr hinputs
  unfold next
  rw [Run.run_bind, Run.run_get]
  dsimp only
  rw [hpending, hended]
  dsimp only
  rw [hopen, if_neg Bool.false_ne_true, List.append_nil]

end Scanner

end GrammarEngine
