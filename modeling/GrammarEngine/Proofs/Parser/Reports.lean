import GrammarEngine.Proofs.Parser.Licence
import GrammarEngine.Proofs.Scanner.Candour

/-!
# Errors are recorded, and none is swallowed

An error about the input comes up in many places: files cannot be opened, macro calls are
malformed, no pattern matches, no transition leads on, a pattern has been removed. And a warning
becomes one where the log is told to abort on warnings, even in the middle of pushing frames. All
of them end up in the log of the scanner that is read, and end the operation under way. So its
result and the log never disagree.

Routines and actions are asked for two things. They do nothing behind the fault of a request, which
is how they are modelled, and they raise no fault about the input themselves (`Scanner.Candidly`,
`candid`). Apart from that they may report, scan, go on with files, and change the grammar.

A log, a scanner and a parser that reads from one may be used in any order, together or each on its
own, so the states that they may come to are told together (`MessageLog.Arises`, `Scanner.Arises`,
`Parser.Arises`).

Main results:

* `lawful_candid` — a law of message logs is one of parsers whose actions are candid.
* `Scanner.Arises.holds`, `Parser.Arises.holds` — what is known of all states.
* `errors_recorded` — each operation raises what it recorded, and each log counts its errors.
-/

namespace GrammarEngine

open Run

namespace Parser

/-- The licence to do candid work on the scanner, to change the grammar, and to give up with any
fault but one about the input. -/
def candid : Script.Licence Scanner where
  work := Scanner.Candidly
  drops := True
  fails fault := fault.report? = none

/-- What a law of message logs says about parsers whose actions are candid, and which read
from scanners. -/
theorem lawful_candid {M : Law MessageLog} (hM : Scanner.Lawful M) :
    Lawful candid (Scanner.law M) M where
  source := Scanner.law_lenient hM
  log := Scanner.lenient_of_lawful hM
  next := Scanner.obeyed_next hM
  pushBack := Scanner.obeyed_pushBack hM
  error _ _ _ _ := Scanner.obeyed_errorAt hM _ _ _ _
  warning _ _ _ _ := Scanner.obeyed_report hM _ _ _ _ _
  records := hM.records
  work _ hwork := hwork.obeyed hM
  fails fault hfault :=
    ⟨fun s => hM.beside s.messages (some fault) _ hfault, fun log =>
      hM.beside log (some fault) _ hfault⟩

-- ---------------------------------------------------------------------------
-- Operations
-- ---------------------------------------------------------------------------

/-- What can be done with a parser and a scanner. -/
inductive Operation where
  | parse (rounds : Nat) (rule : String) (scanner : Scanner)
  | error (id text : String) (position : Option Position) (data : Payload)
  | warning (id text : String) (position : Option Position) (data : Payload)

/-- The scanner that a parser reads from in an operation: a parse brings one with it. -/
def Operation.reads? (p : Parser Scanner) : Operation → Option Scanner
  | .parse _ _ scanner => some scanner
  | .error .. | .warning .. => p.source

/-- Carries an operation out. -/
def carryOut : Operation → Run (Parser Scanner) Value
  | .parse rounds rule scanner => parse rounds rule scanner
  | .error id text position data => error id text position data
  | .warning id text position data => do
    warning id text position data
    pure .nothing

/-- What became of the scanner of an operation: the parser reads from it, or has not taken it up. -/
def LeavesScanner (p : Parser Scanner) (s : Scanner) (p' : Parser Scanner) (s' : Scanner) : Prop :=
  p'.source = some s' ∨ s' = s ∧ p'.source = p.source

/-- The law of recording what is raised, for parsers whose actions are candid: in the log of the
scanner, or while there is none in that of the parser. -/
abbrev reporting : Law (Parser Scanner) := law candid Scanner.reporting MessageLog.reporting

variable {p : Parser Scanner} {s : Scanner}

/-- **An operation of a parser.** -/
theorem reports_carryOut (hp : reporting.Holds p) {op : Operation} (hreads : op.reads? p = some s)
    (hs : Scanner.reporting.Holds s) :
    reporting.Holds ((carryOut op).run p).state ∧
      ∃ s', LeavesScanner p s ((carryOut op).run p).state s' ∧
        s.messages.Reports (faultOf? ((carryOut op).run p).result) s'.messages := by
  have h := lawful_candid Scanner.lawful_reporting
  -- besides a parse, an operation only turns to the scanner that is there
  have hsource {x : Run (Parser Scanner) Value} (hx : reporting.Obeyed x)
      (hread : p.source = some s) : reporting.Holds (x.run p).state ∧
        ∃ s', LeavesScanner p s (x.run p).state s' ∧
        s.messages.Reports (faultOf? (x.run p).result) s'.messages := by
    obtain ⟨hholds, htold⟩ := hx p hp
    refine ⟨hholds, ?_⟩
    cases htold with
    | onSource hs hs' _ htold =>
      obtain rfl := Option.some.inj (hread.symm.trans hs)
      exact ⟨_, .inl hs', htold⟩
    | alone hnone => exact nomatch hread.symm.trans hnone
  cases op with
  | parse rounds rule scanner =>
    obtain rfl := Option.some.inj hreads
    have hcut (log : MessageLog) : log.Reports (some .exhausted) log := .silent rfl
    have hdeposit : ∀ t token, reporting.Obeyed (deposit t token) :=
      obeyed_deposit h.lenient (fun _ _ => .silent rfl) fun _ _ => .silent rfl
    obtain ⟨hholds, -, s', trace, htold, hleaves⟩ :=
      parse_told h hdeposit (fun s => hcut s.messages) hcut rounds rule hp hs
    exact ⟨hholds, s', hleaves, htold⟩
  | error id text position data => exact hsource (obeyed_error h id text position data) hreads
  | warning id text position data =>
    refine hsource (fun p hp => ?_) hreads
    exact (obeyed_warning h id text position data p hp).bind fun _ _ hp' _ => accords_pure _ hp'

end Parser

-- ---------------------------------------------------------------------------
-- All states
-- ---------------------------------------------------------------------------

mutual

/-- The states of a log: of one that is used on its own, and of the logs of scanners and parsers. -/
inductive MessageLog.Arises : MessageLog → Prop
  | made (console : Bool) : MessageLog.Arises { console := console }
  | added {log : MessageLog} (h : MessageLog.Arises log) (m : Message) :
    MessageLog.Arises ((MessageLog.add m).run log).state
  | cleared {log : MessageLog} (h : MessageLog.Arises log) : MessageLog.Arises log.clear
  | told {log : MessageLog} (h : MessageLog.Arises log) (console abortOnWarning : Bool) :
    MessageLog.Arises { log with console := console, abortOnWarning := abortOnWarning }
  | ofScanner {s : Scanner} (h : Scanner.Arises s) : MessageLog.Arises s.messages
  | ofParser {p : Parser Scanner} (h : Parser.Arises p) : MessageLog.Arises p.messages

/-- The states of a scanner whose routines are candid. Its log may be used on its own meanwhile, and
a parser may have read from it. -/
inductive Scanner.Arises : Scanner → Prop
  | made {master : String} {lexicon : Lexicon} {defaultMode : Mode} {s : Scanner}
      (hlexicon : lexicon.Candid)
    (h : Scanner.make master lexicon defaultMode = .ok s) : Scanner.Arises s
  | logging {s : Scanner} {log : MessageLog} (h : Scanner.Arises s) (hlog : MessageLog.Arises log) :
    Scanner.Arises { s with messages := log }
  | carriedOut {s : Scanner} {op : Scanner.Operation} (h : Scanner.Arises s) (hop : op.Candid) :
    Scanner.Arises ((Scanner.carryOut op).run s).state
  | read {p : Parser Scanner} {s : Scanner}
      (h : Parser.Arises p) (hs : p.source = some s) : Scanner.Arises s

/-- The states of a parser whose actions are candid, with any scanner and any log. Its rules may
have been declared, and may change, in any way. -/
inductive Parser.Arises : Parser Scanner → Prop
  | declared {p : Parser Scanner} (hactions : p.Within Parser.candid)
    (hsource : ∀ s, p.source = some s → Scanner.Arises s)
      (hlog : MessageLog.Arises p.messages) : Parser.Arises p
  | carriedOut {p : Parser Scanner} {s : Scanner} {op : Parser.Operation} (h : Parser.Arises p)
    (hreads : op.reads? p = some s)
      (hs : Scanner.Arises s) : Parser.Arises ((Parser.carryOut op).run p).state

end

mutual

theorem MessageLog.Arises.counted {log : MessageLog} : log.Arises → log.Counted
  | .made _ => rfl
  | .added h m => (MessageLog.records_reporting.add m _ h.counted).holds
  | .cleared _ => rfl
  | .told h _ _ => h.counted
  | .ofScanner h => h.holds.2
  | .ofParser h => h.holds.2.2

theorem Scanner.Arises.holds {s : Scanner} : s.Arises → Scanner.reporting.Holds s
  | .made hlexicon h => by
    obtain ⟨-, rfl⟩ := Scanner.make_eq_ok_iff.mp h
    exact ⟨⟨hlexicon, fun _ hinput => nomatch hinput⟩, rfl⟩
  | .logging h hlog => ⟨⟨h.holds.1.lexicon, h.holds.1.atEnds⟩, hlog.counted⟩
  | .carriedOut h hop => (Scanner.tells_carryOut hop h.holds).1
  | .read h hs => h.holds.2.1 _ hs

theorem Parser.Arises.holds {p : Parser Scanner} : p.Arises → Parser.reporting.Holds p
  | .declared hactions hsource hlog => ⟨hactions, fun s hs => (hsource s hs).holds, hlog.counted⟩
  | .carriedOut h hreads hs => (Parser.reports_carryOut h.holds hreads hs.holds).1

end

/-- The count of errors goes by the severity of the messages. -/
theorem MessageLog.Counted.errors_eq {log : MessageLog} (h : log.Counted) :
    log.errors = log.messages.countP fun m => m.severity = .error ∨ m.severity = .critical := by
  have hcounts : ∀ m ∈ log.messages, m.severity.counts ↔
      decide (m.severity = .error ∨ m.severity = .critical) := by
    intro m _
    cases m.severity <;> decide
  exact h.trans (List.countP_congr hcounts)

/-- **Errors are recorded, and none is swallowed.** In every state of a scanner, and of a parser
that reads from one, an operation raises a fault about the input just in case that it recorded a
message that is an error, or a warning while the log is told to abort on warnings. Then there is one
such message, it is the last one in the log of the scanner, and the fault carries it. And every log
counts its errors and critical messages. -/
theorem errors_recorded :
    (∀ s : Scanner, s.Arises → ∀ op : Scanner.Operation, op.Candid →
      s.messages.Tells ((Scanner.carryOut op).run s).result
        ((Scanner.carryOut op).run s).state.messages) ∧
    (∀ p : Parser Scanner, p.Arises →
      ∀ (op : Parser.Operation) (s : Scanner), op.reads? p = some s → s.Arises →
      ∃ s', Parser.LeavesScanner p s ((Parser.carryOut op).run p).state s' ∧
        s.messages.Tells ((Parser.carryOut op).run p).result s'.messages) ∧
    ∀ log : MessageLog, log.Arises →
      log.errors = log.messages.countP fun m => m.severity = .error ∨ m.severity = .critical := by
  refine ⟨fun s hs op hop => (Scanner.tells_carryOut hop hs.holds).2, fun p hp op s hreads hs => ?_,
    fun log hlog => hlog.counted.errors_eq⟩
  obtain ⟨-, s', hleaves, hreports⟩ := Parser.reports_carryOut hp.holds hreads hs.holds
  exact ⟨s', hleaves, hreports.tells⟩

/-- A word, or one behind a keyword that is deprecated. -/
private def deprecating : Parser Scanner where
  grammar :=
    { rules :=
        [{ id := ⟨"item", 0⟩
           patterns :=
            [{ Pattern.ofTokens [⟨.literal, "old"⟩, ⟨.category, "ID"⟩] none with
                support := .deprecated },
              .ofTokens [⟨.category, "ID"⟩] none] }]
      distinct := by decide }
  declared := 1
  stamped := by decide

/-- Words, with blanks between them. -/
private def words : Lexicon :=
  [ (none,
      [ ⟨none, ⟨.repeated 1 none false (.oneOf false [.char ' ', .char '\n']), 0, {}⟩, none⟩,
        ⟨some "ID", ⟨.repeated 1 none false (.oneOf false [.range 'a' 'z']), 0, {}⟩, none⟩ ]) ]

/-- A scanner that is to stop at warnings, with a deprecated keyword in front of it. -/
private def unread : Scanner :=
  { master := "old ?"
    lexicon := words
    defaultMode := none
    mode := none
    messages := { abortOnWarning := true } }

/-- A scanner whose log is told to abort on warnings, opened. -/
private def strict : Scanner := ((Scanner.carryOut (.start true)).run unread).state

/-- The parse of one item. -/
private def parseItem : Parser.Operation := .parse 9 "item" strict

/-- The scanner after the parse has failed. -/
private def failed : Scanner :=
  (((Parser.carryOut parseItem).run deprecating).state.source).getD strict

private theorem arises_strict : strict.Arises := by
  have hlexicon : words.Candid := by
    refine List.forall_mem_singleton.mpr
      (List.forall_mem_cons.mpr ⟨nofun, List.forall_mem_singleton.mpr nofun⟩)
  have hmade : Scanner.make "old ?" words none = .ok { unread with messages := {} } := rfl
  exact .carriedOut (.logging (.made hlexicon hmade) (.told (.made false) false true)) trivial

private theorem arises_deprecating : deprecating.Arises := by
  refine .declared ⟨fun r hr q hq => ?_, fun _ hf => (List.not_mem_nil hf).elim⟩
    (fun s hs => (Option.some_ne_none s hs.symm).elim) (.made false)
  obtain rfl : r = _ := List.mem_singleton.mp hr
  rcases List.mem_pair.mp hq with rfl | rfl
  all_goals exact Action.within_none

private theorem arises_failed : failed.Arises := by
  have hsome : ((Parser.carryOut parseItem).run deprecating).state.source.isSome := by
    decide +kernel
  obtain ⟨s, hs⟩ := Option.isSome_iff_exists.mp hsome
  have hfailed : failed = s := by
    unfold failed
    rw [hs, Option.getD_some]
  rw [hfailed]
  exact .read (.carriedOut arises_deprecating rfl arises_strict) hs

/-- The first frame of a parse is not pushed, since its keyword is deprecated; then the scanner
meets a character that is none of any token. -/
theorem errors_recorded_deprecated :
    (((Parser.carryOut parseItem).run deprecating).result.toOption.isNone ∧
      ∃ s',
        Parser.LeavesScanner deprecating strict
          ((Parser.carryOut parseItem).run deprecating).state s' ∧
        strict.messages.Tells ((Parser.carryOut parseItem).run deprecating).result s'.messages) ∧
    failed.messages.messages.map Message.id = ["deprecated_keyword"] ∧
    failed.messages.Tells ((Scanner.carryOut (.next 9)).run failed).result
      ((Scanner.carryOut (.next 9)).run failed).state.messages ∧
    ((Scanner.carryOut (.next 9)).run failed).state.messages.messages.map Message.id =
      ["deprecated_keyword", "no_token_match"] ∧
    ((Scanner.carryOut (.next 9)).run failed).state.messages.errors =
      ((Scanner.carryOut (.next 9)).run failed).state.messages.messages.countP fun m =>
        m.severity = .error ∨ m.severity = .critical := by
  refine ⟨⟨by decide +kernel, ?_⟩, by decide +kernel, ?_, by decide +kernel, ?_⟩
  · exact errors_recorded.2.1 deprecating arises_deprecating parseItem strict rfl arises_strict
  · exact errors_recorded.1 failed arises_failed (.next 9) trivial
  · exact errors_recorded.2.2 _ (.ofScanner (.carriedOut arises_failed trivial))

end GrammarEngine
