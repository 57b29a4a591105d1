import GrammarEngine.Proofs.Scanner.Levels

/-!
# Scanning with macros comes to an end

A macro may call itself, or put half a call into the line that the text behind completes, so it is
not plain that a scanner ever gets done with its text. It does, if its patterns have no routines and
do not match the empty text: every round of scanning makes a token, or else leaves less of the text,
as it is measured by the room for expansions.

Main results:

* `scanRound_leaves_less` — what a round leaves.
* `Scanning.ends`, `Scanning.finishes` — a call for a token ends, and finitely many calls
  come to the end.
* `scanning_with_macros_ends` — so they do in every state of a scanner, with as many open
  expansions as allowed.
-/

namespace GrammarEngine

namespace Scanner

variable {depth : Nat} {t t' t₀ : Scanner}

/-- Patterns without routines that never match the empty text. -/
def Plain (patterns : List TokenPattern) : Prop :=
  ∀ p ∈ patterns, p.routine = none ∧ ∀ line pos m, p.regex.matchAt line pos = some m → m.text ≠ ""

theorem lt_stop_of_matchAt {regex : Regex} {line : List Char} {pos : Nat} {m : Match}
    (h : regex.matchAt line pos = some m) (hpos : pos < line.length)
    (htext : m.text ≠ "") : pos < m.stop := by
  unfold Regex.matchAt Regex.matchFrom at h
  obtain ⟨g, -, rfl⟩ := Option.map_eq_some_iff.mp h
  have hstart : (Regex.Focus.ofLine line pos).pos = pos := Nat.min_eq_left (Nat.le_of_lt hpos)
  by_contra hstop
  have hempty : ∀ text : List Char, (text.take g.pos).drop pos = [] := by
    intro text
    rw [List.drop_eq_nil_iff, List.length_take]
    exact Nat.le_trans (Nat.min_le_left _ _) (Nat.le_of_not_lt hstop)
  refine htext ?_
  dsimp only
  rw [hstart, slice, hempty]

-- ---------------------------------------------------------------------------
-- Rounds
-- ---------------------------------------------------------------------------

/-- A scanner that scans one input, with plain patterns. -/
structure Scanning (depth : Nat) (t : Scanner) : Prop where
  pending : t.pending = none
  ended : t.ended = none
  mode : t.mode = t.defaultMode
  plain : Plain ((t.lexicon.patterns? t.mode).getD [])
  maxDepth : t.maxDepth = depth
  inputs : ∃ input, t.inputs = [input] ∧ input.stream.Bounded depth

/-- A scanner that has come to the end of its input. -/
structure Finished (depth : Nat) (t : Scanner) : Prop where
  pending : t.pending = none
  ended : ∃ token, t.ended = some token ∧ token.isEnd = true
  depth_le : ∀ input ∈ t.inputs, input.stream.expansions.length ≤ depth

/-- What is left to a scanner. -/
def size (depth : Nat) (t : Scanner) : Multiset Nat × Nat :=
  match t.current? with
  | some s => (s.room depth, s.left)
  | none => (0, 0)

/-- Less is left to a scanner than to another. -/
def Less (depth : Nat) (t' t : Scanner) : Prop := Stream.Smaller (t'.size depth) (t.size depth)

theorem wellFounded_less (depth : Nat) : WellFounded (Less depth) :=
  InvImage.wf (size depth) Stream.wellFounded_smaller

/-- What scanning leaves that has been going on since a state. -/
def Answers (depth : Nat) (t : Scanner) : Except Fault Token → Scanner → Prop
  | .ok token, t' =>
    (Scanning depth t' ∧ Less depth t' t) ∨ (token.isEnd = true ∧ Finished depth t')
  | .error fault, t' =>
    Scanning depth t' ∧ ((fault = .badNumeral ∧ Less depth t' t) ∨ ∃ m, fault = .parse m)

section Moved

variable {input : Input} {s s' s₀ : Stream}

/-- What moves the cursor in the line at hand goes on scanning. -/
theorem Scanning.of_moves (h : Scanning depth t) (hinputs : t.inputs = [input])
    (hmoves : Moves (t.onto s) t' s') (hb : s'.Bounded depth) : Scanning depth t' := by
  refine ⟨hmoves.pending.trans h.pending, hmoves.ended.trans h.ended, ?_, ?_,
    hmoves.setting.maxDepth.trans h.maxDepth, { input with stream := s' }, ?_, hb⟩
  · rw [hmoves.setting.mode, hmoves.setting.defaultMode]
    exact h.mode
  · rw [hmoves.setting.mode, hmoves.setting.lexicon]
    exact h.plain
  · rw [hmoves.inputs, onto_inputs (onto_inputs hinputs s)]

/-- Less is left where less is left of the line at hand. -/
theorem less_of_moves (hcurrent : t.current? = some s₀) (hroom : s.room depth ≤ s₀.room depth)
    (hleft : s.left ≤ s₀.left) (hmoves : Moves (t.onto s) t' s')
    (hsmaller : Stream.Smaller (s'.room depth, s'.left) (s.room depth, s.left)) :
    Less depth t' t := by
  unfold Less size
  rw [hmoves.current (current?_onto hcurrent s), hcurrent]
  exact hsmaller.trans_le hroom hleft

end Moved

/-- Every round makes a token, or leaves less text. -/
theorem scanRound_leaves_less (h : Scanning depth t) : scanRound.Leaves t fun r t' =>
    match r with
    | .ok (some token) => Answers depth t (.ok token) t'
    | .ok none => Scanning depth t' ∧ Less depth t' t
    | .error fault => Answers depth t (.error fault) t' := by
  obtain ⟨input, hinputs, hb⟩ := h.inputs
  have hcurrent := current?_of_inputs hinputs
  rw [scanRound_leaves hcurrent hb.isOpen]
  cases hup : input.stream.upcoming? with
  | none =>
    have hinputs' := onto_inputs hinputs { input.stream with cursor := none }
    refine (endOfInput_leaves hinputs').mono fun r t' hr => ?_
    obtain ⟨hinputs'', -, ⟨token, hend, rfl, hpending, hended⟩ | ⟨hmode, -⟩⟩ := hr
    · refine .inr ⟨hend, hpending.trans h.pending, ⟨token, hended, hend⟩, fun done hdone => ?_⟩
      rw [hinputs'', hinputs', List.mem_singleton] at hdone
      rw [hdone]
      exact (List.length_map Expansion.stop).symm.trans_le hb.depth_le
    · exact absurd h.mode hmode
  | some s =>
    obtain ⟨hb', hroom, hleft, c, hc, hpos⟩ := Stream.upcoming?_bounded hb hup
    have hmoved : ∀ {t' : Scanner} {s' : Stream}, Moves (t.onto s) t' s' → s'.Bounded depth →
        Scanning depth t' := h.of_moves hinputs
    have hless : ∀ {t' : Scanner} {s' : Stream}, Moves (t.onto s) t' s' →
        Stream.Smaller (s'.room depth, s'.left) (s.room depth, s.left) → Less depth t' t :=
      less_of_moves hcurrent hroom hleft
    refine (scanAtCursor_leaves (current?_onto hcurrent s) hb'.isOpen hc).mono fun r t' hr => ?_
    cases hr with
    | call hplan hreplaces =>
      obtain ⟨hle, hbegins, hnone⟩ := callBegins_of_plan_call hplan
      have hdepth' : (t.onto s).maxDepth = depth := h.maxDepth
      cases hreplaces with
      | replaced hrewritten hdepth hmoves =>
        rw [hdepth'] at hdepth
        exact ⟨hmoved hmoves (hrewritten.bounded hb' hc hdepth),
          hless hmoves (.left _ _ (hrewritten.room_lt hb' hc hpos hdepth hle hbegins hnone))⟩
      | overflow hdepth hlonger hmoves =>
        exact ⟨hmoved hmoves (hlonger.bounded hb' hc), .inr ⟨_, rfl⟩⟩
      | refused hid hlonger hmoves => exact ⟨hmoved hmoves (hlonger.bounded hb' hc), .inr ⟨_, rfl⟩⟩
      | @numeral t' s' pos more hbehind hlonger hmoves =>
        have hfirst : firstCall c ≤ firstCall ⟨c.line ++ more, pos⟩ := by
          rw [firstCall_eq hle hbegins hnone]
          exact Nat.le_trans (Nat.le_of_lt hbehind) (pos_le_firstCall ⟨c.line ++ more, pos⟩)
        have hroom' := hlonger.room_le hb' hc hpos hfirst
        have hleft' := hlonger.left_lt hc hpos (Nat.lt_of_le_of_lt hle hbehind)
        exact ⟨hmoved hmoves (hlonger.bounded hb' hc),
          .inl ⟨rfl, hless hmoves (Stream.smaller_of_le hroom' hleft')⟩⟩
    | @token p m t' hplan hroutine hmoves =>
      obtain ⟨hmem, hmatch⟩ := mem_of_plan_token hplan
      have hstop := lt_stop_of_matchAt hmatch hpos ((h.plain p hmem).2 _ _ _ hmatch)
      have hlonger := s.longer_seek c m.stop
      have hfirst : firstCall c ≤ firstCall ⟨c.line ++ [], m.stop⟩ := by
        rw [List.append_nil]
        exact firstCall_mono (Nat.le_of_lt hstop)
      have hroom' := hlonger.room_le hb' hc hpos hfirst
      have hprogress : Scanning depth t' ∧ Less depth t' t :=
        ⟨hmoved hmoves (hlonger.bounded hb' hc),
          hless hmoves (Stream.smaller_of_le hroom' (hlonger.left_lt hc hpos hstop))⟩
      cases p.kind with
      | none => exact hprogress
      | some kind => exact .inl hprogress
    | @routine p m routine t₁ t' r hplan hroutine hmoves hperforms =>
      obtain ⟨hmem, -⟩ := mem_of_plan_token hplan
      rw [(h.plain p hmem).1] at hroutine
      cases hroutine
    | unmatched hplan hid hmoves => exact ⟨hmoved hmoves hb', .inr ⟨_, rfl⟩⟩

-- ---------------------------------------------------------------------------
-- Tokens
-- ---------------------------------------------------------------------------

theorem Scanning.inputs_ne_nil (h : Scanning depth t) : t.inputs ≠ [] := by
  obtain ⟨input, hinputs, -⟩ := h.inputs
  rw [hinputs]
  exact List.cons_ne_nil _ _

theorem Answers.of_less {r : Except Fault Token}
    (h : t = t₀ ∨ Less depth t t₀) (hr : Answers depth t r t') : Answers depth t₀ r t' := by
  have hless : ∀ {t'}, Less depth t' t → Less depth t' t₀ := by
    rcases h with rfl | h
    · exact id
    · exact fun h' => Stream.Smaller.trans h' h
  cases r with
  | ok token => exact hr.imp_left fun h => ⟨h.1, hless h.2⟩
  | error fault => exact ⟨hr.1, hr.2.imp_left fun h => ⟨h.1, hless h.2⟩⟩

/-- A scanner that scans answers every call. -/
theorem Scanning.ends (h : Scanning depth t) :
    ∃ o, Run.Ends next t o ∧ Answers depth t o.result o.state := by
  have hends : ∃ o, Run.Ends (Run.repeated scanRound) t o ∧ Answers depth t o.result o.state := by
    refine Run.ends_repeated (wellFounded_less depth)
      (fun t₁ => Scanning depth t₁ ∧ (t₁ = t ∨ Less depth t₁ t)) (fun t₁ hinv => ?_) ⟨h, .inl rfl⟩
    refine (scanRound_leaves_less hinv.1).mono fun r t₂ hr => ?_
    match r, hr with
    | .ok (some token), hr => exact hr.of_less hinv.2
    | .ok none, hr =>
      refine ⟨⟨hr.1, .inr ?_⟩, hr.2⟩
      rcases hinv.2 with rfl | hless
      · exact hr.2
      · exact Stream.Smaller.trans hr.2 hless
    | .error fault, hr =>
      refine ⟨?_, hr.of_less hinv.2⟩
      rcases hr.2 with ⟨rfl, -⟩ | ⟨m, rfl⟩ <;> nofun
  obtain ⟨o, ⟨hfinished, n, hn⟩, hanswers⟩ := hends
  refine ⟨o, ⟨hfinished, n, fun m hm => ?_⟩, hanswers⟩
  rw [next_run h.pending h.ended h.inputs_ne_nil]
  exact hn m hm

/-- A scanner that has come to its end answers with its end token for ever. -/
theorem Finished.ends (h : Finished depth t) :
    ∃ token : Token, token.isEnd = true ∧ Run.Ends next t ⟨.ok token, t, []⟩ := by
  obtain ⟨token, hended, hend⟩ := h.ended
  exact ⟨token, hend, nofun, 0, fun m _ => next_of_ended m h.pending hended⟩

/-- Calling a scanner again and again comes to its end token, or to an error in the input, after
finitely many calls. A numeral in a macro that is too long to be read does not stop it. -/
inductive Finishes : Scanner → Prop
  | ended {t : Scanner} {o : Outcome Scanner Token} {token : Token} (hends : Run.Ends next t o)
      (hresult : o.result = .ok token) (hend : token.isEnd = true) : Finishes t
  | refused {t : Scanner} {o : Outcome Scanner Token} {m : Message} (hends : Run.Ends next t o)
      (hresult : o.result = .error (.parse m)) : Finishes t
  | further {t : Scanner} {o : Outcome Scanner Token} (hends : Run.Ends next t o)
      (hresult : (∃ token, o.result = .ok token) ∨ o.result = .error .badNumeral)
      (hfinishes : Finishes o.state) : Finishes t

theorem Scanning.finishes (h : Scanning depth t) : Finishes t := by
  induction t using (wellFounded_less depth).induction with
  | _ t ih =>
    obtain ⟨o, hends, hanswers⟩ := h.ends
    cases hresult : o.result with
    | ok token =>
      rw [hresult] at hanswers
      rcases hanswers with ⟨hscanning, hless⟩ | ⟨hend, -⟩
      · exact .further hends (.inl ⟨token, hresult⟩) (ih o.state hless hscanning)
      · exact .ended hends hresult hend
    | error fault =>
      rw [hresult] at hanswers
      obtain ⟨hscanning, ⟨rfl, hless⟩ | ⟨m, rfl⟩⟩ := hanswers
      · exact .further hends (.inr hresult) (ih o.state hless hscanning)
      · exact .refused hends hresult

-- ---------------------------------------------------------------------------
-- Every state of a scanner
-- ---------------------------------------------------------------------------

theorem Scanning.next_keeps (h : Scanning depth t) (rounds : Nat) :
    Scanning depth ((next rounds).run t).state ∨ Finished depth ((next rounds).run t).state := by
  rw [next_run h.pending h.ended h.inputs_ne_nil]
  have hkeeps : (Run.repeated scanRound rounds).Leaves t fun _ t' =>
      Scanning depth t' ∨ Finished depth t' := by
    refine Run.repeated_keeps (Scanning depth) (fun t₁ hscanning => ?_) (fun t₁ => .inl) h rounds
    refine (scanRound_leaves_less hscanning).mono fun r t₂ hr => ?_
    match r, hr with
    | .ok (some token), hr => exact hr.imp And.left And.right
    | .ok none, hr => exact hr.1
    | .error fault, hr => exact .inl hr.1
  exact hkeeps

theorem Reached.scanning_or_finished
    (hplain : Plain ((t₀.lexicon.patterns? t₀.defaultMode).getD []))
    (h : Reached t₀ t) : Scanning t₀.maxDepth t ∨ Finished t₀.maxDepth t := by
  induction h with
  | opened =>
    refine .inl ⟨rfl, rfl, rfl, hplain, rfl, _, rfl, rfl,
      fun _ hstop => absurd hstop List.not_mem_nil, Nat.zero_le _⟩
  | @next t hreached rounds ih =>
    rcases ih with hscanning | hfinished
    · exact hscanning.next_keeps rounds
    · obtain ⟨token, hended, -⟩ := hfinished.ended
      rw [next_of_ended rounds hfinished.pending hended]
      exact .inr hfinished

/-- **Scanning with macros comes to an end.** Every call for a token does, in every state that a
scanner reaches; calling it again and again comes to the end token or to an error in the input; and
never are more expansions open than allowed. -/
theorem scanning_with_macros_ends (hplain : Plain ((t₀.lexicon.patterns? t₀.defaultMode).getD []))
    (h : Reached t₀ t) : (∃ o, Run.Ends next t o) ∧ Finishes t ∧
      ∀ input ∈ t.inputs, input.stream.expansions.length ≤ t₀.maxDepth := by
  rcases h.scanning_or_finished hplain with hscanning | hfinished
  · obtain ⟨o, hends, -⟩ := hscanning.ends
    refine ⟨⟨o, hends⟩, hscanning.finishes, fun input hinput => ?_⟩
    obtain ⟨input', hinputs, hb⟩ := hscanning.inputs
    rw [hinputs, List.mem_singleton] at hinput
    rw [hinput]
    exact (List.length_map Expansion.stop).symm.trans_le hb.depth_le
  · obtain ⟨token, hend, hends⟩ := hfinished.ends
    exact ⟨⟨_, hends⟩, .ended hends rfl hend, hfinished.depth_le⟩

/-- A pattern for any character. -/
private def anyCharacter : TokenPattern := ⟨some "CHAR", ⟨.anyChar, 0, { dotAll := true }⟩, none⟩

private theorem plain_anyCharacter : Plain [anyCharacter] := by
  intro p hp
  rw [List.mem_singleton] at hp
  subst hp
  refine ⟨rfl, fun line pos m h htext => ?_⟩
  obtain ⟨g, hforward, rfl⟩ := Option.map_eq_some_iff.mp h
  have hfocus : (Regex.Focus.ofLine line pos).forward (fun _ => true) = some g := by
    rw [← hforward]
    exact (Option.bind_fun_some _).symm
  unfold Regex.Focus.forward at hfocus
  split at hfocus
  · next c rest hafter =>
    obtain rfl := Option.some.inj hfocus
    have hpos : pos < line.length := by
      by_contra hle
      have hdrop : line.drop pos = c :: rest := hafter
      rw [List.drop_eq_nil_of_le (Nat.le_of_not_lt hle)] at hdrop
      cases hdrop
    have hstart : (Regex.Focus.ofLine line pos).pos = pos := Nat.min_eq_left (Nat.le_of_lt hpos)
    dsimp only at htext
    rw [Regex.Focus.ofLine_line, hstart] at htext
    have hlength := congrArg (·.toList.length) htext
    simp [slice] at hlength
    omega
  · cases hfocus

/-- A scanner whose text calls a macro that calls itself for ever. -/
private def recursive : Scanner :=
  { master := "$\x7bm\x7db"
    lexicon := [(none, [anyCharacter])]
    defaultMode := none
    mode := none
    macros := ⟨[⟨"m", "a$\x7bm\x7d", none⟩]⟩ }

/-- A macro that calls itself for ever does not keep a scanner from coming to an end. -/
theorem recursive_macro_ends :
    Plain ((recursive.lexicon.patterns? recursive.defaultMode).getD []) ∧
    Reached recursive ((start true).run recursive).state ∧
    (∃ o, Run.Ends next ((start true).run recursive).state o) ∧
      Finishes ((start true).run recursive).state ∧
      ∀ input ∈ ((start true).run recursive).state.inputs,
        input.stream.expansions.length ≤ recursive.maxDepth :=
  ⟨plain_anyCharacter, .opened, scanning_with_macros_ends plain_anyCharacter .opened⟩

end Scanner

end GrammarEngine
