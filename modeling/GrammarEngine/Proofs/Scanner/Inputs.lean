import GrammarEngine.Proofs.Scanner.Local
import GrammarEngine.Proofs.Scanner.Names

/-!
# What the open inputs hold

A scanner that reads words holds a stack of inputs, each with the words that are still to come from
it. A token that was pushed back counts for the input that it came from; when another file is
included it is kept with that input. So including a file puts its words in front, and loses none.

The end of the whole input is different: once it was reached it stays the answer, whatever
is included then.

Main results:

* `Live.next_word`, `Live.next_below`, `Live.next_end` — what the next token is.
* `Live.pushBack`, `Live.includeFile` — what a word pushed back and an included file add.
* `Opened.includeFile_recursive`, `Opened.includeFile_missing` — which files are refused.
* `Over.includeFile` — behind the end of the whole input a file is opened and not read.
-/

namespace GrammarEngine

namespace Scanner

/-- The token of an identifier. -/
structure Denotes (token : Token) (word : String) : Prop where
  kind : token.kind = "ID"
  value : token.value = .text word

/-- A scanner delivers words, and then the end of the input. -/
inductive Delivers : Scanner → List String → Prop
  | done {s s' : Scanner} {token : Token} {rounds : Nat} (hnext : (next rounds).Returns s token s')
      (hended : s'.ended = some token) : Delivers s []
  | word {s s' : Scanner} {token : Token} {rounds : Nat} {w : String} {ws : List String}
      (hnext : (next rounds).Returns s token s') (hdenotes : Denotes token w)
      (hrest : Delivers s' ws) : Delivers s (w :: ws)

/-- The words that a scanner delivers, if there are fewer than `n`, each within some rounds. -/
def delivered? (rounds : Nat) : Nat → Scanner → Option (List String)
  | 0, _ => none
  | n + 1, s =>
    match (next rounds).run s with
    | ⟨.ok ⟨kind, value, position⟩, s', _⟩ =>
      if s'.ended = some ⟨kind, value, position⟩ then some []
      else if kind = "ID" then do
        let w ← value.text?
        let ws ← delivered? rounds n s'
        pure (w :: ws)
      else none
    | ⟨.error _, _, _⟩ => none

/-- What is delivered when tried out is what a scanner delivers. -/
theorem delivers_of_delivered? {rounds n : Nat} {s : Scanner} {words : List String}
    (h : delivered? rounds n s = some words) : Delivers s words := by
  induction n generalizing s words with
  | zero => cases h
  | succ n ih =>
    unfold delivered? at h
    split at h
    · next kind value position s' trace hrun =>
      have hnext : (next rounds).Returns s ⟨kind, value, position⟩ s' := ⟨trace, hrun⟩
      split at h
      · next hended =>
        obtain rfl := Option.some.inj h
        exact .done hnext hended
      · split at h
        · next hkind =>
          obtain ⟨w, hvalue, h⟩ := Option.bind_eq_some_iff.mp h
          obtain ⟨ws, hrest, h⟩ := Option.bind_eq_some_iff.mp h
          obtain rfl := Option.some.inj h
          have hdenotes : Denotes ⟨kind, value, position⟩ w := by
            refine ⟨hkind, ?_⟩
            cases value with
            | text s => rw [← Option.some.inj hvalue]
            | _ => cases hvalue
          exact .word hnext hdenotes (ih hrest)
        · cases h
    · cases h

-- ---------------------------------------------------------------------------
-- One input
-- ---------------------------------------------------------------------------

/-- The scanner that has only one input. -/
def alone (c : Scanner) (stream : Stream) : Scanner :=
  { c with inputs := [{ stream := stream }], pending := none, ended := none }

/-- A round of scanning, once there is a line. -/
def scanLine : Run Scanner (Option Token) := do
  onStream (Run.modify Stream.cleanup)
  scanAtCursor

/-- The words that a stream holds for the patterns, the macros and the mode of a scanner. -/
inductive Supplies (c : Scanner) : Stream → List String → Prop
  | done {stream stream' : Stream} (hready : Stream.readyNextLine.Returns stream false stream') :
      Supplies c stream []
  | pass {stream stream₁ stream' : Stream} {s' : Scanner} {ws : List String}
      (hready : Stream.readyNextLine.Returns stream true stream₁)
      (hscan : scanLine.Returns (alone c stream₁) none s') (hcurrent : s'.current? = some stream')
      (hrest : Supplies c stream' ws) : Supplies c stream ws
  | word {stream stream₁ stream' : Stream} {s' : Scanner} {token : Token} {w : String}
      {ws : List String} (hready : Stream.readyNextLine.Returns stream true stream₁)
      (hscan : scanLine.Returns (alone c stream₁) (some token) s') (hdenotes : Denotes token w)
      (hcurrent : s'.current? = some stream') (hrest : Supplies c stream' ws) :
      Supplies c stream (w :: ws)

/-- Scanning a line looks at the current input only. -/
theorem local_scanLine {lexicon : Lexicon} {mode : Mode} (hquiet : Quiet lexicon mode) :
    Local lexicon mode scanLine := by
  refine local_bind (local_onStream fun stream u stream' h => ?_) fun _ => local_scanAtCursor hquiet
  obtain rfl := Run.returns_modify.mp h
  exact ⟨rfl, rfl⟩

/-- A scanner with one input that has the setting of another. -/
theorem alike_alone {c t : Scanner} {stream : Stream} (hsame : SameSetting c t)
    (hcurrent : t.current? = some stream) : Alike (alone c stream) t :=
  ⟨hsame.congr ⟨rfl, rfl, rfl, rfl, rfl, rfl, rfl⟩ (.refl t), stream, rfl, hcurrent⟩

-- ---------------------------------------------------------------------------
-- Rounds of scanning
-- ---------------------------------------------------------------------------

/-- A round that makes a token is the last one. -/
theorem yields_of_round_some {s s' : Scanner} {token : Token}
    (h : scanRound.Returns s (some token) s') : Run.Yields (Run.repeated scanRound) s token s' := by
  refine ⟨1, fun m hm => ?_⟩
  obtain ⟨k, rfl⟩ : ∃ k, m = k + 1 := ⟨m - 1, by omega⟩
  rw [Run.repeated_succ]
  exact Run.returns_bind.mpr ⟨some token, s', h, Run.returns_pure.mpr ⟨rfl, rfl⟩⟩

/-- Behind a round that makes none, more are needed. -/
theorem yields_of_round_none {s s₁ s' : Scanner} {token : Token} (h : scanRound.Returns s none s₁)
    (hrest : Run.Yields (Run.repeated scanRound) s₁ token s') :
    Run.Yields (Run.repeated scanRound) s token s' := by
  obtain ⟨n, hn⟩ := hrest
  refine ⟨n + 1, fun m hm => ?_⟩
  obtain ⟨k, rfl⟩ : ∃ k, m = k + 1 := ⟨m - 1, by omega⟩
  rw [Run.repeated_succ]
  exact Run.returns_bind.mpr ⟨none, s₁, h, hn k (by omega)⟩

/-- A scanner in which only the current input has moved on. -/
def movedTo (s : Scanner) (input : Input) (below : List Input) (stream : Stream)
    (start : Option Position) : Scanner :=
  { s with inputs := { input with stream := stream } :: below, tokenStart := start }

/-- Moving on leaves the setting. -/
theorem setting_movedTo {c s : Scanner}
    (hsame : SameSetting c s) (input : Input) (below : List Input) (stream : Stream)
    (start : Option Position) : SameSetting c (s.movedTo input below stream start) :=
  hsame.congr (.refl c) ⟨rfl, rfl, rfl, rfl, rfl, rfl, rfl⟩

/-- What is scanned alone is scanned on top of other inputs, too. -/
theorem scanRound_of_alone {c t s' : Scanner} {input : Input} {below : List Input}
    {stream₁ stream' : Stream} {found : Option Token} (hquiet : Quiet c.lexicon c.mode)
    (hsame : SameSetting c t) (hinputs : t.inputs = input :: below)
    (hready : Stream.readyNextLine.Returns input.stream true stream₁)
    (hscan : scanLine.Returns (alone c stream₁) found s') (hcurrent : s'.current? = some stream') :
    input.stream.Steady stream' ∧
      ∃ start, scanRound.Returns t found (t.movedTo input below stream' start) := by
  -- the line is there
  have hline : (onStream Stream.readyNextLine).Returns t true
      (t.movedTo input below stream₁ t.tokenStart) :=
    onStream_returns.mpr ⟨input, below, stream₁, hinputs, hready, rfl⟩
  have halike : Alike (alone c stream₁) (t.movedTo input below stream₁ t.tokenStart) :=
    alike_alone (setting_movedTo hsame ..) rfl
  obtain ⟨t', ht', halike', hscanned⟩ :=
    local_scanLine hquiet (alone c stream₁) _ _ _ rfl rfl halike hscan
  obtain ⟨input', below', stream, start, hinputs', hsteady, rfl⟩ := hscanned.moved
  obtain ⟨rfl, rfl⟩ := List.cons.inj hinputs'
  -- both have moved to the same place
  have hstream : stream = stream' := by
    have hsame' := halike'.current_eq
    rw [hcurrent] at hsame'
    exact Option.some.inj hsame'
  obtain rfl := hstream
  refine ⟨(Stream.readyNextLine_steady hready).trans hsteady, start, ?_⟩
  exact Run.returns_bind.mpr ⟨true, _, hline, ht'⟩

/-- The next word of a stream is delivered from the top of the inputs. -/
theorem Supplies.yields_word {c : Scanner} {stream : Stream} {w : String} {ws : List String}
    (h : Supplies c stream (w :: ws)) (hquiet : Quiet c.lexicon c.mode)
    {t : Scanner} {input : Input} {below : List Input} (hsame : SameSetting c t)
    (hinputs : t.inputs = input :: below) (hstream : input.stream = stream) :
    ∃ token stream' start, Denotes token w ∧ stream.Steady stream' ∧ Supplies c stream' ws ∧
      Run.Yields (Run.repeated scanRound) t token (t.movedTo input below stream' start) := by
  generalize hall : w :: ws = words at h
  induction h generalizing t input with
  | done => cases hall
  | pass hready hscan hcurrent hrest ih =>
    rw [← hstream] at hready
    obtain ⟨hsteady, start, hround⟩ := scanRound_of_alone hquiet hsame hinputs hready hscan hcurrent
    obtain ⟨token, stream', start', hdenotes, hsteady', hrest', hyields⟩ :=
      ih (setting_movedTo hsame input below _ start) rfl rfl hall
    rw [hstream] at hsteady
    exact ⟨token, stream', start', hdenotes, hsteady.trans hsteady', hrest',
      yields_of_round_none hround hyields⟩
  | word hready hscan hdenotes hcurrent hrest ih =>
    obtain ⟨rfl, rfl⟩ := List.cons.inj hall
    rw [← hstream] at hready
    obtain ⟨hsteady, start, hround⟩ := scanRound_of_alone hquiet hsame hinputs hready hscan hcurrent
    rw [hstream] at hsteady
    exact ⟨_, _, start, hdenotes, hsteady, hrest, yields_of_round_some hround⟩

/-- A stream without words is passed over to its end. -/
theorem Supplies.yields_end {c : Scanner} {stream : Stream} (h : Supplies c stream [])
    (hquiet : Quiet c.lexicon c.mode) {t : Scanner} {input : Input} {below : List Input}
    (hsame : SameSetting c t) (hinputs : t.inputs = input :: below)
    (hstream : input.stream = stream) :
    ∃ stream' stream'' start,
      stream.Steady stream' ∧ Stream.readyNextLine.Returns stream' false stream'' ∧ ∀ token t',
        Run.Yields (Run.repeated scanRound) (t.movedTo input below stream' start) token t' →
        Run.Yields (Run.repeated scanRound) t token t' := by
  generalize hall : ([] : List String) = words at h
  induction h generalizing t input with
  | done hready =>
    refine ⟨_, _, t.tokenStart, .refl _, hready, fun token t' hyields => ?_⟩
    have hstays : t.movedTo input below input.stream t.tokenStart = t := by
      unfold movedTo
      rw [← hinputs]
    rw [← hstream, hstays] at hyields
    exact hyields
  | pass hready hscan hcurrent hrest ih =>
    rw [← hstream] at hready
    obtain ⟨hsteady, start, hround⟩ := scanRound_of_alone hquiet hsame hinputs hready hscan hcurrent
    obtain ⟨stream', stream'', start', hsteady', hready', hyields⟩ :=
      ih (setting_movedTo hsame input below _ start) rfl rfl hall
    rw [hstream] at hsteady
    exact ⟨stream', stream'', start', hsteady.trans hsteady', hready', fun token t' h =>
      yields_of_round_none hround (hyields token t' h)⟩
  | word => cases hall

-- ---------------------------------------------------------------------------
-- The end of an input
-- ---------------------------------------------------------------------------

/-- At the end of an included file the scanner goes back to the parent, and hands on what
was kept there. -/
theorem scanRound_at_end {t : Scanner} {done parent : Input} {below : List Input} {stream : Stream}
    (hmode : t.mode = t.defaultMode) (hinputs : t.inputs = done :: parent :: below)
    (hidle : done.atEnd = .idle) (hready : Stream.readyNextLine.Returns done.stream false stream) :
    scanRound.Returns t parent.saved
      { t with inputs := { parent with saved := none } :: below, pending := none } := by
  have hline := onStream_returns.mpr ⟨done, parent :: below, stream, hinputs, hready, rfl⟩
  refine Run.returns_bind.mpr ⟨false, _, hline, ?_⟩
  rw [if_neg Bool.false_ne_true]
  have hdefault : ¬ (t.mode != t.defaultMode) = true := by simp [hmode]
  have hroutine : (perform done.atEnd).Returns
      { t with inputs := { parent with saved := none } :: below, pending := parent.saved }
        (none, .nothing)
      { t with inputs := { parent with saved := none } :: below, pending := parent.saved } := by
    rw [hidle]
    exact Run.returns_pure.mpr ⟨rfl, rfl⟩
  unfold endOfInput
  refine Run.returns_bind.mpr ⟨_, _, Run.returns_get.mpr ⟨rfl, rfl⟩, ?_⟩
  rw [if_neg hdefault]
  refine Run.returns_bind.mpr ⟨(), _, Run.returns_emit.mpr rfl, ?_⟩
  refine Run.returns_bind.mpr ⟨(), _, Run.returns_set.mpr rfl, ?_⟩
  refine Run.returns_bind.mpr ⟨(), _, Run.returns_discard.mpr ⟨_, hroutine⟩, ?_⟩
  refine Run.returns_bind.mpr ⟨_, _, Run.returns_get.mpr ⟨rfl, rfl⟩, ?_⟩
  exact Run.returns_bind.mpr ⟨(), _, Run.returns_modify.mpr rfl, Run.returns_pure.mpr ⟨rfl, rfl⟩⟩

/-- At the end of the last input the end token is delivered. -/
theorem scanRound_at_last {t : Scanner} {done : Input} {stream : Stream}
    (hmode : t.mode = t.defaultMode) (hinputs : t.inputs = [done])
    (hready : Stream.readyNextLine.Returns done.stream false stream) :
    ∃ position, scanRound.Returns t (some (Token.endOfInput position))
      { t with
        inputs := [{ done with stream := stream }]
        ended := some (Token.endOfInput position) } := by
  have hline := onStream_returns.mpr ⟨done, [], stream, hinputs, hready, rfl⟩
  have hdefault : ¬ (t.mode != t.defaultMode) = true := by simp [hmode]
  refine ⟨position { t with inputs := [{ done with stream := stream }] }, ?_⟩
  refine Run.returns_bind.mpr ⟨false, _, hline, ?_⟩
  rw [if_neg Bool.false_ne_true]
  unfold endOfInput
  refine Run.returns_bind.mpr ⟨_, _, Run.returns_get.mpr ⟨rfl, rfl⟩, ?_⟩
  rw [if_neg hdefault]
  exact Run.returns_bind.mpr ⟨(), _, Run.returns_set.mpr rfl, Run.returns_pure.mpr ⟨rfl, rfl⟩⟩

-- ---------------------------------------------------------------------------
-- The open inputs
-- ---------------------------------------------------------------------------

/-- An input in front of which a token may be waiting, with the name of its file and the words
still to come. -/
structure Holds (c : Scanner) (dir : String) (input : Input) (waiting : Option Token)
    (file : String) (words : List String) : Prop where
  words : ∃ more, Supplies c input.stream more ∧
    ((waiting = none ∧ words = more) ∨
      ∃ token w, waiting = some token ∧ Denotes token w ∧ words = w :: more)
  directory : input.stream.directory = dir
  location : input.stream.location? = some (Location.ofName (Location.inside dir file))
  idle : input.atEnd = .idle

/-- The inputs below the current one: each keeps the token that was read too far. -/
inductive Below (c : Scanner) (dir : String) : List Input → List (String × List String) → Prop
  | nil : Below c dir [] []
  | cons {input : Input} {inputs : List Input} {token : Token} {file : String} {words : List String}
      {agenda : List (String × List String)} (hsaved : input.saved = some token)
      (hholds : Holds c dir input (some token) file words) (hrest : Below c dir inputs agenda) :
      Below c dir (input :: inputs) ((file, words) :: agenda)

/-- A scanner that reads files of a directory, with the words that each open file still holds, the
current file first. -/
structure Live (c : Scanner) (dir : String) (t : Scanner)
    (agenda : List (String × List String)) : Prop where
  setting : SameSetting c t
  disk : t.disk = c.disk
  ended : t.ended = none
  inputs : ∃ top below file words rest, t.inputs = top :: below ∧ agenda = (file, words) :: rest ∧
    Holds c dir top t.pending file words ∧ Below c dir below rest

/-- A scanner that has delivered the end of the whole input. -/
structure Over (dir main : String) (token : Token) (t : Scanner) : Prop where
  isEnd : token.isEnd = true
  ended : t.ended = some token
  pending : t.pending = none
  inputs : ∃ input, t.inputs = [input] ∧ input.stream.directory = dir ∧
    input.stream.location? = some (Location.ofName (Location.inside dir main))

variable {c t : Scanner} {dir file : String} {w : String} {ws : List String}
  {rest : List (String × List String)}

/-- The current input and those below it. -/
theorem Live.head (h : Live c dir t ((file, ws) :: rest)) :
    ∃ top below, t.inputs = top :: below ∧ Holds c dir top t.pending file ws ∧
      Below c dir below rest := by
  obtain ⟨top, below, _, _, _, hinputs, heq, hholds, hbelow⟩ := h.inputs
  obtain ⟨hhead, rfl⟩ := List.cons.inj heq
  obtain ⟨rfl, rfl⟩ := Prod.mk.inj hhead
  exact ⟨top, below, hinputs, hholds, hbelow⟩

/-- Without words left there is nothing in front of the input either. -/
theorem Holds.of_nil {input : Input} {waiting : Option Token}
    (h : Holds c dir input waiting file []) : waiting = none ∧ Supplies c input.stream [] := by
  obtain ⟨more, hmore, ⟨hnone, rfl⟩ | ⟨_, _, -, -, hwords⟩⟩ := h.words
  · exact ⟨hnone, hmore⟩
  · cases hwords

/-- The next token is what repeated rounds make, if none is waiting. -/
theorem next_of_repeated {s s' : Scanner} {token : Token}
    (hpending : s.pending = none) (hended : s.ended = none) (hinputs : s.inputs ≠ [])
    (h : Run.Yields (Run.repeated scanRound) s token s') : Run.Yields next s token s' := by
  obtain ⟨n, hn⟩ := h
  refine ⟨n, fun m hm => ?_⟩
  refine Run.returns_bind.mpr ⟨s, s, Run.returns_get.mpr ⟨rfl, rfl⟩, ?_⟩
  rw [hpending, hended]
  have hopen : s.inputs.isEmpty = false := by simpa using hinputs
  simp only [hopen, Bool.false_eq_true, if_false]
  exact hn m hm

/-- A token that is waiting is delivered next. -/
theorem yields_pending {s : Scanner} {token : Token} (hpending : s.pending = some token) :
    Run.Yields next s token { s with pending := none } :=
  ⟨0, fun m _ => ⟨[], next_of_pending m hpending⟩⟩

/-- A stream stays the file that it is. -/
theorem directory_of_steady {stream stream' : Stream} (h : stream.Steady stream') :
    stream'.directory = stream.directory := by
  unfold Stream.directory
  rw [h.origin, h.name]

/-- Reading on leaves the file where it is. -/
theorem location_of_steady {stream stream' : Stream} (h : stream.Steady stream') :
    stream'.location? = stream.location? := by
  unfold Stream.location?
  rw [h.origin]

/-- An input that has moved on holds what its stream does. -/
theorem Holds.moved {input : Input} {waiting : Option Token} {words more : List String}
    {stream : Stream}
    (h : Holds c dir input waiting file words) (hsteady : input.stream.Steady stream)
    (hmore : Supplies c stream more) : Holds c dir { input with stream := stream } none file more :=
  ⟨⟨more, hmore, .inl ⟨rfl, rfl⟩⟩, (directory_of_steady hsteady).trans h.directory,
    (location_of_steady hsteady).trans h.location, h.idle⟩

/-- The next word of the current file. -/
theorem Live.next_word (hquiet : Quiet c.lexicon c.mode)
    (h : Live c dir t ((file, w :: ws) :: rest)) :
    ∃ token t', Denotes token w ∧ Run.Yields next t token t' ∧ t'.pending = none ∧
      Live c dir t' ((file, ws) :: rest) := by
  obtain ⟨top, below, hinputs, hholds, hbelow⟩ := h.head
  obtain ⟨hsame, hdisk, hended, -⟩ := h
  obtain ⟨more, hmore, hwaiting⟩ := hholds.words
  rcases hwaiting with ⟨hpending, rfl⟩ | ⟨token, w', hpending, hdenotes, hwords⟩
  · -- it is scanned
    obtain ⟨token, stream', start, hdenotes, hsteady, hrest, hyields⟩ :=
      hmore.yields_word hquiet hsame hinputs rfl
    have hopen : t.inputs ≠ [] := by
      rw [hinputs]
      exact List.cons_ne_nil _ _
    refine ⟨token, _, hdenotes, next_of_repeated hpending hended hopen hyields, hpending, ?_⟩
    refine ⟨setting_movedTo hsame .., hdisk, hended, _, below, file, ws, rest, rfl, rfl, ?_, hbelow⟩
    show Holds c dir _ t.pending file ws
    rw [hpending]
    exact hholds.moved hsteady hrest
  · -- it had been pushed back
    obtain ⟨rfl, rfl⟩ := List.cons.inj hwords
    refine ⟨token, _, hdenotes, yields_pending hpending, rfl, ?_⟩
    refine ⟨hsame.congr (.refl c) ⟨rfl, rfl, rfl, rfl, rfl, rfl, rfl⟩, hdisk, hended, top, below,
      file, ws, rest, hinputs, rfl, ?_, hbelow⟩
    exact ⟨⟨ws, hmore, .inl ⟨rfl, rfl⟩⟩, hholds.directory, hholds.location, hholds.idle⟩

/-- Behind the words of an included file comes what was kept with the file below. -/
theorem Live.next_below (hquiet : Quiet c.lexicon c.mode) (hmode : c.mode = c.defaultMode)
    {file' : String} (h : Live c dir t ((file', []) :: (file, w :: ws) :: rest)) :
    ∃ token t', Denotes token w ∧ Run.Yields next t token t' ∧ t'.pending = none ∧
      Live c dir t' ((file, ws) :: rest) := by
  obtain ⟨top, below, hinputs, hholds, hbelow⟩ := h.head
  obtain ⟨hsame, hdisk, hended, -⟩ := h
  obtain ⟨hpending, hmore⟩ := hholds.of_nil
  cases hbelow with
  | @cons parent below token _ _ _ hsaved hparent hrest =>
    obtain ⟨more', hmore', hkept⟩ := hparent.words
    obtain ⟨hdenotes, rfl⟩ : Denotes token w ∧ ws = more' := by
      rcases hkept with ⟨hnone, -⟩ | ⟨token', w', htoken, hdenotes, hwords⟩
      · cases hnone
      · cases htoken
        obtain ⟨rfl, rfl⟩ := List.cons.inj hwords
        exact ⟨hdenotes, rfl⟩
    -- the file is read to its end, and then the parent goes on
    obtain ⟨stream', stream'', start, -, hready, hyields⟩ :=
      hmore.yields_end hquiet hsame hinputs rfl
    have hstay : t.mode = t.defaultMode := hsame.mode.trans (hmode.trans hsame.defaultMode.symm)
    have hround := scanRound_at_end (t := t.movedTo top (parent :: below) stream' start) hstay rfl
      hholds.idle hready
    rw [hsaved] at hround
    have hopen : t.inputs ≠ [] := by
      rw [hinputs]
      exact List.cons_ne_nil _ _
    refine ⟨token, _, hdenotes,
      next_of_repeated hpending hended hopen (hyields _ _ (yields_of_round_some hround)), rfl, ?_⟩
    refine ⟨hsame.congr (.refl c) ⟨rfl, rfl, rfl, rfl, rfl, rfl, rfl⟩, hdisk, hended, _, below,
      file, ws, rest, rfl, rfl, ?_, hrest⟩
    exact ⟨⟨ws, hmore', .inl ⟨rfl, rfl⟩⟩, hparent.directory, hparent.location, hparent.idle⟩

/-- Behind the words of the last input comes the end. -/
theorem Live.next_end (hquiet : Quiet c.lexicon c.mode) (hmode : c.mode = c.defaultMode)
    (h : Live c dir t [(file, [])]) :
    ∃ token t', Run.Yields next t token t' ∧ Over dir file token t' ∧ t'.disk = c.disk := by
  obtain ⟨top, below, hinputs, hholds, hbelow⟩ := h.head
  obtain ⟨hsame, hdisk, hended, -⟩ := h
  obtain ⟨hpending, hmore⟩ := hholds.of_nil
  cases hbelow
  obtain ⟨stream', stream'', start, hsteady, hready, hyields⟩ :=
    hmore.yields_end hquiet hsame hinputs rfl
  have hstay : t.mode = t.defaultMode := hsame.mode.trans (hmode.trans hsame.defaultMode.symm)
  obtain ⟨position, hround⟩ :=
    scanRound_at_last (t := t.movedTo top [] stream' start) hstay rfl hready
  have hopen : t.inputs ≠ [] := by
    rw [hinputs]
    exact List.cons_ne_nil _ _
  have hsteady' := Stream.readyNextLine_steady hready
  refine ⟨_, _, next_of_repeated hpending hended hopen (hyields _ _ (yields_of_round_some hround)),
    ?_, hdisk⟩
  refine ⟨Token.isEnd_endOfInput position, rfl, hpending, _, rfl, ?_, ?_⟩
  · exact (directory_of_steady (hsteady.trans hsteady')).trans hholds.directory
  · exact (location_of_steady (hsteady.trans hsteady')).trans hholds.location

/-- A word that is pushed back is in front again. -/
theorem Live.pushBack {token : Token} (h : Live c dir t ((file, ws) :: rest))
    (hpending : t.pending = none) (hdenotes : Denotes token w) :
    ∃ t', (pushBack token).Returns t () t' ∧ t'.pending = some token ∧
      Live c dir t' ((file, w :: ws) :: rest) := by
  obtain ⟨top, below, hinputs, hholds, hbelow⟩ := h.head
  obtain ⟨hsame, hdisk, hended, -⟩ := h
  obtain ⟨more, hmore, hwaiting⟩ := hholds.words
  obtain rfl : ws = more := by
    rcases hwaiting with ⟨-, hwords⟩ | ⟨token, w', hsome, -, -⟩
    · exact hwords
    · rw [hpending] at hsome
      cases hsome
  refine ⟨{ t with pending := some token }, ?_, rfl, ?_⟩
  · refine Run.returns_bind.mpr ⟨t, t, Run.returns_get.mpr ⟨rfl, rfl⟩, ?_⟩
    rw [hpending]
    exact Run.returns_set.mpr rfl
  · refine ⟨hsame.congr (.refl c) ⟨rfl, rfl, rfl, rfl, rfl, rfl, rfl⟩, hdisk, hended, top, below,
      file, w :: ws, rest, hinputs, rfl, ?_, hbelow⟩
    exact ⟨⟨ws, hmore, .inr ⟨token, w, rfl, hdenotes, rfl⟩⟩, hholds.directory, hholds.location,
      hholds.idle⟩

-- ---------------------------------------------------------------------------
-- Including a file
-- ---------------------------------------------------------------------------

/-- A file of the directory holds words. -/
def Stores (c : Scanner) (dir file : String) (words : List String) : Prop :=
  ∃ stream, Stream.ofFile? c.disk (Location.inside dir file) = .ok stream ∧ Supplies c stream words

/-- Opening a file that can be read changes nothing. -/
theorem openFile_returns {s : Scanner} {stream : Stream} {name id complaint : String}
    {position : Option Position} (h : Stream.ofFile? s.disk name = .ok stream) :
    (openFile name id complaint position).Returns s stream s := by
  refine Run.returns_bind.mpr ⟨s, s, Run.returns_get.mpr ⟨rfl, rfl⟩, ?_⟩
  rw [h]
  exact Run.returns_bind.mpr ⟨(), s, Run.returns_emit.mpr rfl, Run.returns_pure.mpr ⟨rfl, rfl⟩⟩

/-- The stream of a file bears its name, and is at its place. -/
theorem ofFile?_eq_ok {disk : Disk} {name : String} {stream : Stream}
    (h : Stream.ofFile? disk name = .ok stream) :
    stream.name = name ∧ stream.origin = .file (Location.ofName name) := by
  obtain ⟨text, -, h⟩ := bind_eq_ok.1 h
  cases h
  exact ⟨rfl, rfl⟩

/-- The files that a scanner has open, all of one directory. -/
structure Opened (dir : String) (names : List String) (t : Scanner) : Prop where
  current : ∃ top below, t.inputs = top :: below ∧ top.stream.directory = dir
  named : ∀ input ∈ t.inputs, ∃ name ∈ names,
    input.stream.location? = some (Location.ofName (Location.inside dir name))
  opened : ∀ name ∈ names, ∃ input ∈ t.inputs,
    input.stream.location? = some (Location.ofName (Location.inside dir name))

section Opened

variable {names : List String} {name : String} {stream : Stream}

/-- A file of the directory is seen from the current input. -/
theorem Opened.fullName (h : Opened dir names t) (hname : Location.Plain name) :
    t.fullName name = Location.inside dir name := by
  obtain ⟨top, below, hinputs, hdir⟩ := h.current
  have hcurrent := current?_of_inputs hinputs
  rw [fullName_of_plain hname hcurrent, hdir]

/-- Whether a file is open is known from the places of the inputs. -/
theorem Opened.any_iff (h : Opened dir names t) (hname : Location.Plain name)
    (hplain : ∀ name ∈ names, Location.Plain name) :
    t.inputs.any (fun input =>
        input.stream.location? == some (Location.ofName (Location.inside dir name))) = true ↔
      name ∈ names := by
  rw [List.any_eq_true]
  constructor
  · rintro ⟨input, hinput, heq⟩
    obtain ⟨other, hother, hlocation⟩ := h.named input hinput
    rw [beq_iff_eq.mp heq, Option.some.injEq] at hlocation
    rwa [Location.ofName_inside_inj hname (hplain other hother) hlocation]
  · intro hmem
    obtain ⟨input, hinput, hlocation⟩ := h.opened name hmem
    exact ⟨input, hinput, beq_iff_eq.mpr hlocation⟩

/-- A file is included if it can be read and is not being read. -/
theorem Opened.includeFile (h : Opened dir names t) (hname : Location.Plain name)
    (hplain : ∀ name ∈ names, Location.Plain name) (hnew : name ∉ names)
    (hfile : Stream.ofFile? t.disk (Location.inside dir name) = .ok stream)
    {top : Input} {below : List Input} (hinputs : t.inputs = top :: below) :
    (includeFile name none .idle).Returns t (Location.inside dir name)
      { t with
        inputs := { stream := stream } :: { top with saved := t.pending } :: below
        pending := none } := by
  refine Run.returns_bind.mpr ⟨t, t, Run.returns_get.mpr ⟨rfl, rfl⟩, ?_⟩
  dsimp only
  rw [h.fullName hname, if_neg fun hany => hnew ((h.any_iff hname hplain).mp hany)]
  refine Run.returns_bind.mpr ⟨stream, t, openFile_returns hfile, ?_⟩
  refine Run.returns_bind.mpr ⟨(), _, Run.returns_modify.mpr rfl, Run.returns_pure.mpr ⟨rfl, ?_⟩⟩
  rw [hinputs]

/-- A file that is open is refused. -/
theorem Opened.includeFile_recursive (h : Opened dir names t) (hname : Location.Plain name)
    (hplain : ∀ name ∈ names, Location.Plain name) (hopen : name ∈ names) : ∃ fault,
      fault.Tells "include_recursion" ("Recursive inclusion of " ++ Location.inside dir name ++
        " detected") ∧ (Scanner.includeFile name none .idle).Fails t fault := by
  obtain ⟨fault, htells, hfails⟩ := errorAt_fails (α := String) "include_recursion"
    ("Recursive inclusion of " ++ Location.inside dir name ++ " detected") none .null t
  refine ⟨fault, htells, Run.leaves_get_bind.mpr ?_⟩
  dsimp only
  rw [h.fullName hname, if_pos ((h.any_iff hname hplain).mpr hopen)]
  exact hfails

/-- So is a file that the system cannot open. -/
theorem Opened.includeFile_missing (h : Opened dir names t) (hname : Location.Plain name)
    (hplain : ∀ name ∈ names, Location.Plain name) (hnew : name ∉ names) {cause : Fault}
    {reason : String} (hfile : Stream.ofFile? t.disk (Location.inside dir name) = .error cause)
    (hreason : cause.systemText? = some reason) : ∃ fault,
      fault.Tells "bad_include" ("Cannot open include file " ++ Location.inside dir name ++ ": " ++
        reason) ∧ (Scanner.includeFile name none .idle).Fails t fault := by
  obtain ⟨fault, htells, hfails⟩ := errorAt_fails (α := Stream) "bad_include"
    ("Cannot open include file " ++ Location.inside dir name ++ ": " ++ reason) none .null t
  refine ⟨fault, htells, Run.leaves_get_bind.mpr ?_⟩
  dsimp only
  rw [h.fullName hname, if_neg fun hany => hnew ((h.any_iff hname hplain).mp hany)]
  have hopening :
      (openFile (Location.inside dir name) "bad_include" "Cannot open include file " none).Fails
        t fault := by
    refine Run.leaves_get_bind.mpr ?_
    rw [hfile]
    dsimp only
    rw [hreason]
    exact hfails
  exact hopening.bind _

end Opened

/-- The files that are open below the current one. -/
theorem Below.location {inputs : List Input} {agenda : List (String × List String)}
    (h : Below c dir inputs agenda) {input : Input} (hinput : input ∈ inputs) :
    ∃ entry ∈ agenda,
      input.stream.location? = some (Location.ofName (Location.inside dir entry.1)) := by
  induction h with
  | nil => cases hinput
  | @cons head _ _ file words _ hsaved hholds hrest ih =>
    rcases List.mem_cons.mp hinput with rfl | hinput
    · exact ⟨(file, words), List.mem_cons_self .., hholds.location⟩
    · obtain ⟨entry, hentry, hlocation⟩ := ih hinput
      exact ⟨entry, List.mem_cons_of_mem _ hentry, hlocation⟩

/-- Each file below the current one is that of an input. -/
theorem Below.input {inputs : List Input} {agenda : List (String × List String)}
    (h : Below c dir inputs agenda) {entry : String × List String} (hentry : entry ∈ agenda) :
    ∃ input ∈ inputs,
      input.stream.location? = some (Location.ofName (Location.inside dir entry.1)) := by
  induction h with
  | nil => cases hentry
  | @cons head _ _ file words _ hsaved hholds hrest ih =>
    rcases List.mem_cons.mp hentry with rfl | hentry
    · exact ⟨head, List.mem_cons_self .., hholds.location⟩
    · obtain ⟨input, hinput, hlocation⟩ := ih hentry
      exact ⟨input, List.mem_cons_of_mem _ hinput, hlocation⟩

/-- The files that still hold words are open. -/
theorem Live.opened {agenda : List (String × List String)} (h : Live c dir t agenda) :
    Opened dir (agenda.map Prod.fst) t := by
  obtain ⟨-, -, -, top, below, file, words, rest, hinputs, rfl, hholds, hbelow⟩ := h
  refine ⟨⟨top, below, hinputs, hholds.directory⟩, fun input hinput => ?_, fun name hname => ?_⟩
  · rw [hinputs] at hinput
    rcases List.mem_cons.mp hinput with rfl | hinput
    · exact ⟨file, List.mem_cons_self .., hholds.location⟩
    · obtain ⟨entry, hentry, hlocation⟩ := hbelow.location hinput
      exact ⟨entry.1, List.mem_cons_of_mem _ (List.mem_map_of_mem hentry), hlocation⟩
  · rw [hinputs]
    rcases List.mem_cons.mp hname with rfl | hname
    · exact ⟨top, List.mem_cons_self .., hholds.location⟩
    · obtain ⟨entry, hentry, rfl⟩ := List.mem_map.mp hname
      obtain ⟨input, hinput, hlocation⟩ := hbelow.input hentry
      exact ⟨input, List.mem_cons_of_mem _ hinput, hlocation⟩

/-- **Including** puts the words of a file in front. The word that had been read too far stays
with its file. -/
theorem Live.includeFile {path name : String} {words : List String}
    {agenda : List (String × List String)} {token : Token}
    (h : Live c (Location.directory path) t agenda) (hpending : t.pending = some token)
    (hname : Location.Plain name)
    (hopen : ∀ entry ∈ agenda, Location.Plain entry.1 ∧ entry.1 ≠ name)
    (hfile : Stores c (Location.directory path) name words) :
    ∃ t',
      (includeFile name none .idle).Returns t (Location.inside (Location.directory path) name) t' ∧
      t'.pending = none ∧ Live c (Location.directory path) t' ((name, words) :: agenda) := by
  obtain ⟨stream, hstream, hsupplies⟩ := hfile
  have hopened := h.opened
  have hplain : ∀ other ∈ agenda.map Prod.fst, Location.Plain other := by
    intro other hother
    obtain ⟨entry, hentry, rfl⟩ := List.mem_map.mp hother
    exact (hopen entry hentry).1
  have hnew : name ∉ agenda.map Prod.fst := by
    intro hmem
    obtain ⟨entry, hentry, heq⟩ := List.mem_map.mp hmem
    exact (hopen entry hentry).2 heq
  obtain ⟨hsame, hdisk, hended, top, below, file, ws, rest, hinputs, rfl, hholds, hbelow⟩ := h
  rw [← hdisk] at hstream
  refine ⟨_, hopened.includeFile hname hplain hnew hstream hinputs, rfl, ?_⟩
  refine ⟨hsame.congr (.refl c) ⟨rfl, rfl, rfl, rfl, rfl, rfl, rfl⟩, hdisk, hended, _, _, name,
    words, _, rfl, rfl, ?_, .cons hpending ?_ hbelow⟩
  · obtain ⟨hnamed, horigin⟩ := ofFile?_eq_ok hstream
    refine ⟨⟨words, hsupplies, .inl ⟨rfl, rfl⟩⟩, ?_, ?_, rfl⟩
    · unfold Stream.directory
      rw [horigin, hnamed]
      exact Location.directory_inside hname.no_slash
    · unfold Stream.location?
      rw [horigin]
  · rw [hpending] at hholds
    exact ⟨hholds.words, hholds.directory, hholds.location, hholds.idle⟩

-- ---------------------------------------------------------------------------
-- Behind the end of the whole input
-- ---------------------------------------------------------------------------

/-- A scanner that answers with the end of the whole input, whatever inputs it has. -/
structure Done (token : Token) (t : Scanner) : Prop where
  isEnd : token.isEnd = true
  ended : t.ended = some token
  pending : t.pending = none ∨ t.pending = some token

/-- The end stays the answer. -/
theorem Done.next {token : Token} (h : Done token t) :
    ∃ t', Run.Yields next t token t' ∧ t'.pending = none ∧ Done token t' := by
  rcases h.pending with hpending | hpending
  · exact ⟨t, ⟨0, fun m _ => ⟨[], next_of_ended m hpending h.ended⟩⟩, hpending, h⟩
  · exact ⟨_, yields_pending hpending, rfl, h.isEnd, h.ended, .inl rfl⟩

/-- A token may be pushed back behind the end, where none is waiting. -/
theorem Done.pushBack {token : Token} (h : Done token t) (hpending : t.pending = none) :
    (pushBack token).Returns t () { t with pending := some token } ∧
      Done token { t with pending := some token } := by
  refine ⟨?_, h.isEnd, h.ended, .inr rfl⟩
  refine Run.returns_bind.mpr ⟨t, t, Run.returns_get.mpr ⟨rfl, rfl⟩, ?_⟩
  rw [hpending]
  exact Run.returns_set.mpr rfl

/-- Behind the end the answer is the end. -/
theorem Over.done {main : String} {token : Token} (h : Over dir main token t) : Done token t :=
  ⟨h.isEnd, h.ended, .inl h.pending⟩

/-- Only the main file is open, with the end pushed back or not. -/
theorem Over.opened {main : String} {token : Token} (h : Over dir main token t) :
    Opened dir [main] { t with pending := some token } := by
  obtain ⟨input, hinputs, hdir, hlocation⟩ := h.inputs
  refine ⟨⟨input, [], hinputs, hdir⟩, fun other hother => ?_, fun name hname => ?_⟩
  · have hinput : other ∈ t.inputs := hother
    rw [hinputs, List.mem_singleton] at hinput
    exact ⟨main, List.mem_singleton_self _, hinput ▸ hlocation⟩
  · rw [List.mem_singleton.mp hname]
    refine ⟨input, ?_, hlocation⟩
    show input ∈ t.inputs
    rw [hinputs]
    exact List.mem_singleton_self _

/-- Behind the end of the whole input a file is opened, but the end stays the answer: the words of
the file are never read. -/
theorem Over.includeFile {path main name : String} {words : List String} {token : Token}
    (h : Over (Location.directory path) main token t) (hname : Location.Plain name)
    (hmain : Location.Plain main ∧ main ≠ name) (hdisk : t.disk = c.disk)
    (hfile : Stores c (Location.directory path) name words) :
    ∃ t', (includeFile name none .idle).Returns { t with pending := some token }
      (Location.inside (Location.directory path) name) t' ∧ Done token t' := by
  obtain ⟨stream, hstream, -⟩ := hfile
  obtain ⟨input, hinputs, -, -⟩ := h.inputs
  have hplain : ∀ other ∈ [main], Location.Plain other :=
    fun other hother => List.mem_singleton.mp hother ▸ hmain.1
  have hnew : name ∉ [main] := fun hmem => hmain.2 (List.mem_singleton.mp hmem).symm
  rw [← hdisk] at hstream
  exact ⟨_, h.opened.includeFile hname hplain hnew hstream hinputs, h.isEnd, h.ended, .inl rfl⟩

-- ---------------------------------------------------------------------------
-- A file that is read alone
-- ---------------------------------------------------------------------------

/-- A scanner that reads one input only, with nothing pushed back. -/
structure Lone (c s : Scanner) (input : Input) : Prop where
  setting : SameSetting c s
  inputs : s.inputs = [input]
  pending : s.pending = none
  ended : s.ended = none

/-- A round of a scanner with one input ends the input, or moves it on. -/
theorem Lone.round {s s' : Scanner} {input : Input} {found : Option Token}
    (hquiet : Quiet c.lexicon c.mode)
    (hmode : c.mode = c.defaultMode) (h : Lone c s input) (hround : scanRound.Returns s found s') :
    (∃ stream position, Stream.readyNextLine.Returns input.stream false stream ∧
      found = some (Token.endOfInput position) ∧ s'.ended = found) ∨
    ∃ stream₁ scanned input', Stream.readyNextLine.Returns input.stream true stream₁ ∧
      scanLine.Returns (alone c stream₁) found scanned ∧ scanned.current? = some input'.stream ∧
        Lone c s' input' := by
  obtain ⟨ready, s₁, hline, hrest⟩ := Run.returns_bind.mp hround
  obtain ⟨input', below, stream₁, hinputs, hready, rfl⟩ := onStream_returns.mp hline
  rw [h.inputs] at hinputs
  obtain ⟨rfl, rfl⟩ := List.cons.inj hinputs
  cases ready with
  | false =>
    left
    have hdefault : ¬ (s.mode != s.defaultMode) = true := by
      simp [h.setting.mode, h.setting.defaultMode, hmode]
    rw [if_neg Bool.false_ne_true] at hrest
    unfold endOfInput at hrest
    obtain ⟨s₂, s₃, hget, hrest⟩ := Run.returns_bind.mp hrest
    obtain ⟨rfl, rfl⟩ := Run.returns_get.mp hget
    rw [if_neg hdefault] at hrest
    obtain ⟨_, s₄, hset, hrest⟩ := Run.returns_bind.mp hrest
    obtain rfl := Run.returns_set.mp hset
    obtain ⟨rfl, rfl⟩ := Run.returns_pure.mp hrest
    exact ⟨stream₁, _, hready, rfl, rfl⟩
  | true =>
    right
    have hscan : scanLine.Returns (s.movedTo input [] stream₁ s.tokenStart) found s' := hrest
    have hmoved : SameSetting c (s.movedTo input [] stream₁ s.tokenStart) :=
      setting_movedTo h.setting ..
    have hlocal := local_scanLine hquiet (s.movedTo input [] stream₁ s.tokenStart)
    -- the same is scanned alone
    have halike : Alike (s.movedTo input [] stream₁ s.tokenStart) (alone c stream₁) :=
      ⟨hmoved.symm.congr (.refl _) ⟨rfl, rfl, rfl, rfl, rfl, rfl, rfl⟩, stream₁, rfl, rfl⟩
    obtain ⟨scanned, hscanned, halike', -⟩ := hlocal _ _ _ hmoved.lexicon hmoved.mode halike hscan
    -- and only the input has moved on
    obtain ⟨s'', hscan', -, hstays⟩ := hlocal _ _ _ hmoved.lexicon hmoved.mode
      (⟨.refl _, stream₁, rfl, rfl⟩ : Alike _ (s.movedTo input [] stream₁ s.tokenStart)) hscan
    obtain ⟨-, rfl⟩ := hscan.unique hscan'
    obtain ⟨input', below, stream, start, hinputs', -, rfl⟩ := hstays.moved
    obtain ⟨rfl, rfl⟩ := List.cons.inj hinputs'
    refine ⟨stream₁, scanned, _, hready, hscanned, halike'.current_eq, ?_⟩
    exact ⟨h.setting.trans ⟨rfl, rfl, rfl, rfl, rfl, rfl, rfl⟩, rfl, h.pending, h.ended⟩

/-- Rounds of a scanner with one input end it, or make a token of it. -/
theorem Lone.repeated {input : Input} (hquiet : Quiet c.lexicon c.mode)
    (hmode : c.mode = c.defaultMode) {n : Nat} {s s' : Scanner} {token : Token} (h : Lone c s input)
    (hrun : (Run.repeated scanRound n).Returns s token s') :
    (token.isEnd = true ∧ s'.ended = some token ∧ Supplies c input.stream []) ∨
    ∃ input', Lone c s' input' ∧
      ∀ w ws, Denotes token w → Supplies c input'.stream ws →
          Supplies c input.stream (w :: ws) := by
  induction n generalizing s input with
  | zero =>
    obtain ⟨trace, hrun⟩ := hrun
    cases hrun
  | succ n ih =>
    rw [Run.repeated_succ] at hrun
    obtain ⟨found, s₁, hround, hrest⟩ := Run.returns_bind.mp hrun
    rcases h.round hquiet hmode hround with ⟨stream, position, hready, rfl, hended⟩ | hmoved
    · obtain ⟨rfl, rfl⟩ := Run.returns_pure.mp hrest
      exact .inl ⟨Token.isEnd_endOfInput position, hended, .done hready⟩
    · obtain ⟨stream₁, scanned, input₁, hready, hscan, hcurrent, hlone⟩ := hmoved
      cases found with
      | some found =>
        obtain ⟨rfl, rfl⟩ := Run.returns_pure.mp hrest
        exact .inr ⟨input₁, hlone,
          fun w ws hdenotes hmore => .word hready hscan hdenotes hcurrent hmore⟩
      | none =>
        rcases ih hlone hrest with ⟨hend, hended, hsupplies⟩ | ⟨input', hlone', hmore⟩
        · exact .inl ⟨hend, hended, .pass hready hscan hcurrent hsupplies⟩
        · exact .inr ⟨input', hlone',
            fun w ws hdenotes hws => .pass hready hscan hcurrent (hmore w ws hdenotes hws)⟩

/-- With one input and nothing pushed back, the next token is a matter of rounds. -/
theorem Lone.next {s s' : Scanner} {input : Input} {rounds : Nat} {token : Token}
    (h : Lone c s input) (hnext : (Scanner.next rounds).Returns s token s') :
    (Run.repeated scanRound rounds).Returns s token s' := by
  obtain ⟨s₁, s₂, hget, hrest⟩ := Run.returns_bind.mp hnext
  obtain ⟨rfl, rfl⟩ := Run.returns_get.mp hget
  rw [h.pending, h.ended] at hrest
  have hopen : s.inputs.isEmpty = false := by
    rw [h.inputs]
    rfl
  simp only [hopen, Bool.false_eq_true, if_false] at hrest
  exact hrest

/-- An input that is read alone holds the words that are delivered. -/
theorem Lone.supplies (hquiet : Quiet c.lexicon c.mode) (hmode : c.mode = c.defaultMode)
    {s : Scanner} {words : List String} (hdelivers : Delivers s words) {input : Input}
    (h : Lone c s input) : Supplies c input.stream words := by
  induction hdelivers generalizing input with
  | done hnext hended =>
    rcases h.repeated hquiet hmode (h.next hnext) with ⟨-, -, hsupplies⟩ | ⟨input', hlone, -⟩
    · exact hsupplies
    · rw [hlone.ended] at hended
      cases hended
  | word hnext hdenotes hrest ih =>
    rcases h.repeated hquiet hmode (h.next hnext) with ⟨hend, -, -⟩ | ⟨input', hlone, hmore⟩
    · unfold Token.isEnd Token.endKind at hend
      rw [hdenotes.kind] at hend
      cases hend
    · exact hmore _ _ hdenotes (ih hlone)

-- ---------------------------------------------------------------------------
-- Opening
-- ---------------------------------------------------------------------------

/-- A scanner that has just been opened. -/
def opened (s : Scanner) (stream : Stream) : Scanner :=
  { s with
    inputs := [{ stream := stream }]
    pending := none
    readsLabel := false
    ended := none
    lineLag := 0
    tokenStart := none
    modeStart := none
    modeStack := []
    mode := s.defaultMode }

/-- A scanner is started if its master file can be opened. -/
theorem start_returns {s s' : Scanner} {u : Unit} : (start false).Returns s u s' ↔
    ∃ stream, Stream.ofFile? s.disk s.master = .ok stream ∧ s' = s.opened stream := by
  constructor
  · intro h
    obtain ⟨_, s₁, hmodify, h⟩ := Run.returns_bind.mp h
    obtain rfl := Run.returns_modify.mp hmodify
    obtain ⟨s₂, s₃, hget, h⟩ := Run.returns_bind.mp h
    obtain ⟨rfl, rfl⟩ := Run.returns_get.mp hget
    obtain ⟨stream, s₄, hopen, h⟩ := Run.returns_bind.mp h
    obtain rfl := Run.returns_modify.mp h
    obtain ⟨s₅, s₆, hget, hopen⟩ := Run.returns_bind.mp hopen
    obtain ⟨rfl, rfl⟩ := Run.returns_get.mp hget
    split at hopen
    · next found hfound =>
      obtain ⟨_, s₇, hemit, hopen⟩ := Run.returns_bind.mp hopen
      obtain rfl := Run.returns_emit.mp hemit
      obtain ⟨rfl, rfl⟩ := Run.returns_pure.mp hopen
      exact ⟨found, hfound, rfl⟩
    · split at hopen
      · exact absurd hopen not_returns_errorAt
      · exact absurd hopen Run.not_returns_fail
  · rintro ⟨stream, hfile, rfl⟩
    refine Run.returns_bind.mpr ⟨(), _, Run.returns_modify.mpr rfl, ?_⟩
    refine Run.returns_bind.mpr ⟨_, _, Run.returns_get.mpr ⟨rfl, rfl⟩, ?_⟩
    exact Run.returns_bind.mpr ⟨stream, _, openFile_returns hfile, Run.returns_modify.mpr rfl⟩

/-- A file of a name, opened with a scanner and read alone, delivers words. -/
def Consists (s : Scanner) (name : String) (words : List String) : Prop :=
  ∃ s', (start false).Returns { s with master := name } () s' ∧ Delivers s' words

variable {s : Scanner} {stream : Stream} {words : List String}

/-- A file that consists of words supplies them, whatever is on top. -/
theorem Consists.supplies {name : String}
    (h : Consists s name words) (hquiet : Quiet s.lexicon s.defaultMode) (top : Stream) :
    ∃ stream, Stream.ofFile? s.disk name = .ok stream ∧ Supplies (s.opened top) stream words := by
  obtain ⟨s', hstart, hdelivers⟩ := h
  obtain ⟨stream, hfile, rfl⟩ := start_returns.mp hstart
  have hlone : Lone (s.opened top) (opened { s with master := name } stream) { stream := stream } :=
    ⟨⟨rfl, rfl, rfl, rfl, rfl, rfl, rfl⟩, rfl, rfl, rfl⟩
  exact ⟨stream, hfile, hlone.supplies hquiet rfl hdelivers⟩

/-- A file that consists of words stores them in its directory. -/
theorem Consists.stores {name : String} (h : Consists s (Location.inside dir name) words)
    (hquiet : Quiet s.lexicon s.defaultMode) (top : Stream) :
    Stores (s.opened top) dir name words :=
  h.supplies hquiet top

/-- A scanner that was just opened holds the words of its file. -/
theorem Consists.live (h : Consists s s.master words) (hquiet : Quiet s.lexicon s.defaultMode)
    (hplace : Location.ofName s.master =
      Location.ofName (Location.inside (Location.directory s.master) file)) :
    ∃ stream, (start false).Returns s () (s.opened stream) ∧
      Live (s.opened stream) (Location.directory s.master) (s.opened stream) [(file, words)] := by
  obtain ⟨s', hstart, -⟩ := id h
  obtain ⟨top, -, rfl⟩ := start_returns.mp hstart
  obtain ⟨stream, hfile, hsupplies⟩ := h.supplies hquiet top
  obtain ⟨hnamed, horigin⟩ := ofFile?_eq_ok hfile
  refine ⟨stream, start_returns.mpr ⟨stream, hfile, rfl⟩, .refl _, rfl, rfl, _, [], file, words, [],
    rfl, rfl, ?_, .nil⟩
  obtain ⟨stream', hfile', hsupplies'⟩ := h.supplies hquiet stream
  rw [hfile, Except.ok.injEq] at hfile'
  obtain rfl := hfile'
  refine ⟨⟨words, hsupplies', .inl ⟨rfl, rfl⟩⟩, ?_, ?_, rfl⟩
  · unfold Stream.directory
    rw [horigin, hnamed]
  · unfold Stream.location?
    rw [horigin, hplace]

end Scanner

end GrammarEngine
