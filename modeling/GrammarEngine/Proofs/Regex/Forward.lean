import GrammarEngine.Regex.Match

/-!
# Matches lie in their line

A matcher hands its continuation a place further on in the same line, whatever the expression is.
So a match that is looked for at a place of a line starts there, stops in the line, and has the
text in between.

Main results:

* `Node.matcher_forward` — every matcher goes forward in its line.
* `Regex.matchAt_text` — where a match starts and stops, and its text.
* `Regex.matchAt_split` — what a match passes over.
-/

namespace GrammarEngine.Regex

/-- A place further on in the same line. -/
structure Focus.Leads (f g : Focus) : Prop where
  line : g.line = f.line
  pos_le : f.pos ≤ g.pos
  place : f.pos = f.before.length → g.pos = g.before.length

namespace Focus

variable {f g h : Focus}

theorem Leads.refl (f : Focus) : f.Leads f := ⟨rfl, Nat.le_refl _, id⟩

theorem Leads.trans (hfg : f.Leads g) (hgh : g.Leads h) : f.Leads h :=
  ⟨hgh.line.trans hfg.line, Nat.le_trans hfg.pos_le hgh.pos_le, hgh.place ∘ hfg.place⟩

/-- What has been captured does not matter. -/
theorem Leads.capture (hfg : f.Leads g) (captures : List (Nat × Nat × Nat)) :
    f.Leads { g with captures := captures } := ⟨hfg.line, hfg.pos_le, hfg.place⟩

theorem leads_of_forward {test : Char → Bool} (hfg : f.forward test = some g) : f.Leads g := by
  refine ⟨forward_line hfg, ?_, fun hf => ?_⟩ <;> unfold forward at hfg <;> split at hfg
  · split at hfg
    · cases hfg
      exact Nat.le_succ _
    · cases hfg
  · cases hfg
  · split at hfg
    · cases hfg
      rw [List.length_cons, ← hf]
    · cases hfg
  · cases hfg

/-- A run of characters only reaches places further on. -/
theorem leads_of_mem_run {test : Char → Bool} {n : Nat} {acc : List Focus}
    (hg : g ∈ f.run test n acc) : f.Leads g ∨ g ∈ acc := by
  induction n generalizing f acc with
  | zero =>
    rcases List.mem_cons.mp hg with rfl | hg
    · exact .inl (.refl _)
    · exact .inr hg
  | succ n ih =>
    unfold run at hg
    split at hg
    · next next hnext =>
      rcases ih hg with hleads | hg
      · exact .inl ((leads_of_forward hnext).trans hleads)
      · rcases List.mem_cons.mp hg with rfl | hg
        · exact .inl (.refl _)
        · exact .inr hg
    · rcases List.mem_cons.mp hg with rfl | hg
      · exact .inl (.refl _)
      · exact .inr hg

end Focus

/-- A matcher that goes on with places further on in the line only. -/
def Matcher.Forward (x : Matcher) : Prop :=
  ∀ f k g, x f k = some g → ∃ f', f.Leads f' ∧ k f' = some g

/-- One of two ways to go on. -/
theorem eq_some_of_orElse {α : Type} {x : Option α} {y : Unit → Option α} {a : α}
    (h : x.orElse y = some a) : x = some a ∨ y () = some a := by
  cases x with
  | none => exact .inr h
  | some b => exact .inl h

namespace Matcher

variable {body : Matcher}

theorem forward_times (hbody : body.Forward) (n : Nat) : (body.times n).Forward := by
  induction n with
  | zero => exact fun f k g h => ⟨f, .refl f, h⟩
  | succ n ih =>
    intro f k g h
    obtain ⟨f₁, hf₁, h⟩ := hbody _ _ _ h
    obtain ⟨f₂, hf₂, h⟩ := ih _ _ _ h
    exact ⟨f₂, hf₁.trans hf₂, h⟩

theorem forward_upTo (hbody : body.Forward) (reluctant : Bool) (n : Nat) :
    (body.upTo reluctant n).Forward := by
  induction n with
  | zero => exact fun f k g h => ⟨f, .refl f, h⟩
  | succ n ih =>
    intro f k g h
    -- either it stops here, or there is one more round
    have hmore : ∀ g,
        (body f fun g => if g.pos = f.pos then k g else body.upTo reluctant n g k) = some g →
        ∃ f', f.Leads f' ∧ k f' = some g := by
      intro g h
      obtain ⟨f₁, hf₁, h⟩ := hbody _ _ _ h
      split at h
      · exact ⟨f₁, hf₁, h⟩
      · obtain ⟨f₂, hf₂, h⟩ := ih _ _ _ h
        exact ⟨f₂, hf₁.trans hf₂, h⟩
    unfold upTo at h
    dsimp only at h
    split at h <;> rcases eq_some_of_orElse h with h | h
    · exact ⟨f, .refl f, h⟩
    · exact hmore g h
    · exact hmore g h
    · exact ⟨f, .refl f, h⟩

theorem forward_chars (test : Char → Bool) (least : Nat) (most : Option Nat) (reluctant : Bool) :
    (chars test least most reluctant).Forward := by
  intro f k g h
  unfold chars at h
  obtain ⟨f', hf', h⟩ := List.exists_of_findSome?_eq_some h
  have hmem : f' ∈ f.run test (most.getD f.after.length) [] := by
    split at hf'
    · exact (List.mem_filter.mp (List.mem_reverse.mp hf')).1
    · exact (List.mem_filter.mp hf').1
  rcases Focus.leads_of_mem_run hmem with hleads | hmem
  · exact ⟨f', hleads, h⟩
  · cases hmem

end Matcher

namespace Node

/-- **Every matcher goes forward** in its line. -/
theorem matcher_forward (flags : Flags) (node : Node) : (node.matcher flags).Forward := by
  have hcharacter : ∀ test : Char → Bool, Matcher.Forward fun f k => (f.forward test).bind k := by
    intro test f k g h
    obtain ⟨f', hf', h⟩ := Option.bind_eq_some_iff.mp h
    exact ⟨f', Focus.leads_of_forward hf', h⟩
  -- a test of the place goes on from where it is
  have hplace : ∀ test : Focus → Prop, ∀ [DecidablePred test],
      Matcher.Forward fun f k => if test f then k f else none := by
    intro test _ f k g h
    dsimp only at h
    split at h
    · exact ⟨f, .refl f, h⟩
    · cases h
  -- and so does one that looks at the text around
  have hlook : ∀ (positive : Bool) (m : Matcher), (∀ f k,
      (∃ captures, m f k = if positive then k { f with captures := captures } else none) ∨
        m f k = if positive then none else k f) → m.Forward := by
    intro positive m hm f k g h
    obtain ⟨captures, hfound⟩ | hfound := hm f k
    all_goals
      rw [hfound] at h
      split at h
    · exact ⟨_, (Focus.Leads.refl f).capture _, h⟩
    · cases h
    · cases h
    · exact ⟨f, .refl f, h⟩
  induction node with
  | empty => exact fun f k g h => ⟨f, .refl f, h⟩
  | char c => exact hcharacter _
  | anyChar => exact hcharacter _
  | oneOf negated members => exact hcharacter _
  | seq a b iha ihb =>
    intro f k g h
    obtain ⟨f₁, hf₁, h⟩ := iha _ _ _ h
    obtain ⟨f₂, hf₂, h⟩ := ihb _ _ _ h
    exact ⟨f₂, hf₁.trans hf₂, h⟩
  | alt a b iha ihb =>
    intro f k g h
    rcases eq_some_of_orElse h with h | h
    · exact iha _ _ _ h
    · exact ihb _ _ _ h
  | group number body ih =>
    intro f k g h
    obtain ⟨f₁, hf₁, h⟩ := ih _ _ _ h
    exact ⟨_, hf₁.capture _, h⟩
  | repeated least most reluctant body ih =>
    unfold matcher
    cases body.test? flags with
    | some test => exact Matcher.forward_chars test least most reluctant
    | none =>
      intro f k g h
      obtain ⟨f₁, hf₁, h⟩ := Matcher.forward_times ih least _ _ _ h
      obtain ⟨f₂, hf₂, h⟩ := Matcher.forward_upTo ih reluctant _ _ _ _ h
      exact ⟨f₂, hf₁.trans hf₂, h⟩
  | lineStart => exact hplace fun f => f.before.isEmpty = true
  | lineEnd => exact hplace fun f => f.after = [] ∨ f.after = ['\n']
  | textEnd => exact hplace fun f => f.after.isEmpty = true
  | wordEdge positive => exact hplace fun f => (f.hasText && f.atWordEdge == positive) = true
  | ahead positive body _ =>
    refine hlook positive _ fun f k => ?_
    unfold matcher
    split
    · exact .inl ⟨_, rfl⟩
    · exact .inr rfl
  | behind positive width body _ =>
    refine hlook positive _ fun f k => ?_
    unfold matcher
    split
    · exact .inl ⟨_, rfl⟩
    · exact .inr rfl

end Node

end GrammarEngine.Regex

namespace GrammarEngine

/-- **A match** starts where it was looked for, stops in the line, and has the text in between. -/
theorem Regex.matchAt_text {regex : Regex} {line : List Char} {pos : Nat} {m : Match}
    (h : regex.matchAt line pos = some m) (hpos : pos ≤ line.length) :
    m.start = pos ∧ pos ≤ m.stop ∧ m.stop ≤ line.length ∧
      m.text.toList = (line.take m.stop).drop pos := by
  unfold Regex.matchAt Regex.matchFrom at h
  obtain ⟨g, hg, rfl⟩ := Option.map_eq_some_iff.mp h
  obtain ⟨f', hleads, hf'⟩ := Regex.Node.matcher_forward _ _ _ _ _ hg
  obtain rfl := Option.some.inj hf'
  have hstart : (Regex.Focus.ofLine line pos).pos = pos := Nat.min_eq_left hpos
  have hplace : f'.pos = f'.before.length := hleads.place <| by
    rw [hstart]
    simp [Regex.Focus.ofLine, hpos]
  have hline : f'.line = line := hleads.line.trans (Regex.Focus.ofLine_line line pos)
  have hstop : f'.pos ≤ line.length := by
    rw [hplace, ← hline]
    simp [Regex.Focus.line]
  refine ⟨hstart, ?_, hstop, ?_⟩
  · rw [← hstart]
    exact hleads.pos_le
  · simp only [slice, Regex.Focus.ofLine_line, hstart, String.toList_ofList]

/-- What a match passes over is its text. -/
theorem Regex.matchAt_split {regex : Regex} {line : List Char} {pos : Nat} {m : Match}
    (h : regex.matchAt line pos = some m) (hpos : pos ≤ line.length) :
    line.take m.stop = line.take pos ++ m.text.toList ∧
      line.drop pos = m.text.toList ++ line.drop m.stop := by
  obtain ⟨-, hle, -, htext⟩ := matchAt_text h hpos
  have hprefix : (line.take m.stop).take pos = line.take pos := by
    rw [List.take_take, Nat.min_eq_left hle]
  have hpassed : line.take m.stop = line.take pos ++ m.text.toList := by
    rw [htext, ← hprefix, List.take_append_drop]
  have hline : line.take pos ++ line.drop pos =
      line.take pos ++ (m.text.toList ++ line.drop m.stop) := by
    rw [← List.append_assoc, ← hpassed, List.take_append_drop, List.take_append_drop]
  exact ⟨hpassed, List.append_cancel_left hline⟩

end GrammarEngine
