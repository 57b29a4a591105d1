import GrammarEngine.Proofs.Laws

/-!
# What is recorded and what is raised

Of the messages in a log some were raised when they were recorded, as faults about the input that
carry them: every error, and every warning while the log is told to abort on warnings. The others
leave the run that records them alone, or are raised as faults of another kind.

So there are two ways to see that something was wrong with the input, a fault and a message. For a
run that keeps to its log they say the same (`Tells`): the fault is there if the message is, nothing
is recorded behind that message, and the fault carries it. This is a law of runs (`reporting`).

Main results:

* `reports_recorded` — a message is recorded in accord with this law.
* `Reports.tells` — a run in accord with it shows what is wrong in both ways, or in none.
-/

namespace GrammarEngine

open Run

/-- The message that a fault about the input carries. -/
def Fault.report? : Fault → Option Message
  | .parse m => some m
  | _ => none

theorem Fault.report?_eq_some_iff {fault : Fault} {m : Message} :
    fault.report? = some m ↔ fault = .parse m := by
  cases fault <;> simp [report?]

theorem Fault.IsPlain.report?_eq_none {fault : Fault} (h : fault.IsPlain) :
    fault.report? = none := by
  cases fault with
  | parse => exact h.elim
  | _ => rfl

namespace MessageLog

variable {α : Type} {log log' : MessageLog} {m : Message}

/-- Whether a message is raised as a fault about the input when it is recorded. -/
def raises (log : MessageLog) (m : Message) : Bool :=
  m.severity == .error || m.severity == .warning && log.abortOnWarning

/-- The log counts the messages that are errors. -/
def Counted (log : MessageLog) : Prop := log.errors = log.messages.countP (·.severity.counts)

/-- **What is told.** Messages were only added. The result is a fault about the input just in case
that one of the new messages is of a kind that is raised. Then there is one such message only, it is
the last one in the log, and the fault carries it. -/
def Tells (log : MessageLog) (result : Except Fault α) (log' : MessageLog) : Prop :=
  ∃ new, log'.messages = log.messages ++ new ∧
    ((∃ m, result = .error (.parse m)) ↔ ∃ m ∈ new, log.raises m) ∧
    ∀ m, result = .error (.parse m) → new.filter log.raises = [m] ∧ log'.messages.getLast? = some m

/-- A log after a run that ended with a fault, if with any: after messages that are not raised comes
the one that the fault carries. -/
structure Reports (log : MessageLog) (fault : Option Fault) (log' : MessageLog) : Prop where
  strictness : log'.abortOnWarning = log.abortOnWarning
  recorded : ∃ quiet, log'.messages = log.messages ++ quiet ++ (fault.bind Fault.report?).toList ∧
    ∀ m ∈ quiet, log.raises m = false
  raised : ∀ m ∈ fault.bind Fault.report?, log.raises m

/-- Whether a message is raised only depends on what the log is told to abort on. -/
theorem raises_congr (h : log'.abortOnWarning = log.abortOnWarning) : log'.raises = log.raises := by
  funext m
  unfold raises
  rw [h]

theorem counted_recorded (h : log.Counted) : (log.recorded m).Counted := by
  show (log.recorded m).errors = (log.messages ++ [m]).countP _
  rw [recorded_errors, List.countP_append, List.countP_singleton, h]

/-- Nothing is recorded, and no fault about the input comes up. -/
theorem Reports.silent {fault : Option Fault} (h : fault.bind Fault.report? = none) :
    log.Reports fault log where
  strictness := rfl
  recorded := ⟨[], by simp [h], fun m hm => nomatch hm⟩
  raised m hm := by
    rw [h] at hm
    cases hm

theorem Reports.trans {fault : Option Fault} {log'' : MessageLog} (h : log.Reports none log')
    (h' : log'.Reports fault log'') : log.Reports fault log'' := by
  obtain ⟨quiet, hnew, hquiet⟩ := h.recorded
  obtain ⟨quiet', hnew', hquiet'⟩ := h'.recorded
  have hraises := raises_congr h.strictness
  rw [hraises] at hquiet'
  refine ⟨h'.strictness.trans h.strictness, ⟨quiet ++ quiet', ?_, ?_⟩, hraises ▸ h'.raised⟩
  · rw [hnew', hnew]
    simp
  · exact fun m hm => (List.mem_append.mp hm).elim (hquiet m) (hquiet' m)

/-- **Both ways or none.** -/
theorem Reports.tells {result : Except Fault α} (h : log.Reports (faultOf? result) log') :
    log.Tells result log' := by
  obtain ⟨-, ⟨quiet, hnew, hquiet⟩, hraised⟩ := h
  have hnone : ¬ ∃ m ∈ quiet, log.raises m := by
    rintro ⟨m, hm, h⟩
    exact Bool.noConfusion ((hquiet m hm).symm.trans h)
  cases hreport : (faultOf? result).bind Fault.report? with
  | none =>
    have hresult : ∀ m, result ≠ .error (.parse m) := by
      rintro m rfl
      cases hreport
    rw [hreport, Option.toList_none, List.append_nil] at hnew
    refine ⟨quiet, hnew, iff_of_false (fun ⟨m, hm⟩ => hresult m hm) hnone,
      fun m hm => (hresult m hm).elim⟩
  | some m =>
    obtain ⟨fault, hfault, hm⟩ := Option.bind_eq_some_iff.mp hreport
    obtain rfl : result = .error (.parse m) := by
      cases result with
      | ok a => cases hfault
      | error fault' =>
        obtain rfl := Option.some.inj hfault
        rw [Fault.report?_eq_some_iff.mp hm]
    rw [hreport, Option.toList_some, List.append_assoc] at hnew
    have hm : log.raises m := hraised m hreport
    have honly : (quiet ++ [m]).filter log.raises = [m] := by
      rw [List.filter_append, List.filter_eq_nil_iff.mpr fun m hm =>
        by simp [hquiet m hm], List.nil_append]
      exact List.filter_cons_of_pos hm
    refine ⟨quiet ++ [m], hnew, iff_of_true ⟨m, rfl⟩ ⟨m, by simp, hm⟩, fun m' hm' => ?_⟩
    obtain rfl : m = m' := by
      injection hm' with hfault
      injection hfault
    rw [hnew, ← List.append_assoc]
    exact ⟨honly, List.getLast?_concat⟩

/-- Where nothing is recorded and nothing is raised, nothing is told. -/
theorem tells_ok {a : α} (h : log'.messages = log.messages) : log.Tells (.ok a) log' := by
  refine ⟨[], by rw [h, List.append_nil], iff_of_false ?_ ?_, fun m hm => nomatch hm⟩
  · rintro ⟨m, hm⟩
    cases hm
  · rintro ⟨m, hm, -⟩
    cases hm

-- ---------------------------------------------------------------------------
-- The law
-- ---------------------------------------------------------------------------

/-- The law of recording what is raised, and of counting the errors. -/
def reporting : Law MessageLog where
  Holds := Counted
  Says log fault _ log' := log.Reports fault log'
  still _ := .silent rfl
  chain := Reports.trans

/-- The fault that a message causes is about the input if the message is raised. -/
theorem report?_of_fault? (log : MessageLog) (m : Message) :
    (log.fault? m).bind Fault.report? = if log.raises m then some m else none := by
  unfold fault? raises
  cases m.severity with
  | warning =>
    cases log.abortOnWarning with
    | true | false => rfl
  | _ => rfl

/-- A message is recorded and raised, if it has to be. -/
theorem reports_recorded (log : MessageLog) (m : Message) :
    log.Reports (log.fault? m) (log.recorded m) := by
  have hreport := report?_of_fault? log m
  refine ⟨rfl, ⟨if log.raises m then [] else [m], ?_, ?_⟩, ?_⟩
  · show log.messages ++ [m] = _
    rw [hreport]
    split
    · simp
    · simp
  · split
    · exact fun m hm => nomatch hm
    · next hraises => simpa using hraises
  · rw [hreport]
    split
    · next hraises =>
      rintro _ ⟨⟩
      exact hraises
    · exact fun m hm => nomatch hm

theorem records_reporting : reporting.Records := fun log m hcounted =>
  ⟨counted_recorded hcounted, reports_recorded log m⟩

end MessageLog

end GrammarEngine
