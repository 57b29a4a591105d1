import GrammarEngine.Proofs.Scanner.Solitary
import Mathlib.Data.List.Nodup

/-!
# The desk of a scanner

A scanner keeps its inputs in a list, and the current one is the first of them. To a program that
reads files an input is a handle, and what the list tells is told by three things: the handles
themselves, a stack of entries, each with its handle, and the handle that is current. Opening,
closing, including a file and coming to the end of one change these one after the other, and a
routine may run when only some of that is done.

This module has that program (`Desk`). What it does at its cursor it does with the current handle
only (`atCursor`), so nothing makes the current handle and the stack go together but the order of
the assignments. It is shown that they do (`Wired`): a desk and the scanner with the inputs on its
stack (`view`) come to the same in all that they are asked for.

Main results:

* `mirrors_atCursor` — work at the cursor.
* `mirrors_includeFile`, `mirrors_endOfInput` — a file is included and left.
* `mirrors_carryOut` — operations of a desk are those of a scanner.
-/

namespace GrammarEngine

open Run

-- ---------------------------------------------------------------------------
-- Desks
-- ---------------------------------------------------------------------------

/-- An entry of the stack: the handle of an input that was opened, the token that had been pushed
back when the next file was included, and what is run when the input is done. -/
structure Desk.Entry where
  handle : Nat
  saved : Option Token := none
  atEnd : Routine := .idle

/-- The desk of a scanner. A handle is the number of an input, in the order in which
they were opened. -/
structure Desk where
  /-- The scanner itself. What inputs it has does not matter. -/
  scanner : Scanner
  /-- The inputs that were opened so far. -/
  opened : List Stream := []
  /-- The entries of the inputs being read, the latest first. -/
  stack : List Desk.Entry := []
  /-- The handle of the input at whose cursor the scanner is. -/
  current : Option Nat := none

namespace Desk

open Scanner (Solitary Operation Answer)

variable {α β : Type} {d d' : Desk}

/-- The input of a handle. -/
def streamOf (d : Desk) (handle : Nat) : Stream := d.opened.getD handle default

/-- The scanner as it is at its cursor: its one input is that of the current handle. -/
def focus (d : Desk) : Scanner :=
  { d.scanner with inputs := d.current.toList.map ({ stream := d.streamOf · }) }

/-- A desk after work at the cursor. -/
def worked (s : Scanner) (d : Desk) : Desk :=
  { d with
    scanner := s
    opened :=
      match d.current, s.current? with
      | some handle, some stream => d.opened.set handle stream
      | _, _ => d.opened }

/-- Does work at the cursor. -/
def atCursor (x : Run Scanner α) : Run Desk α := Run.zoom focus worked x

/-- Closes the input of a handle. -/
def shut (handle : Nat) (d : Desk) : Desk :=
  { d with opened := d.opened.modify handle Stream.closed }

/-- A desk with another token pushed back, or with none. -/
def withPending (token : Option Token) (d : Desk) : Desk :=
  { d with scanner := { d.scanner with pending := token } }

/-- Gives an input a handle. -/
def allot (stream : Stream) : Run Desk Nat := do
  let d ← get
  Run.set { d with opened := d.opened ++ [stream] }
  pure d.opened.length

/-- Stops reading. -/
def close : Run Desk Unit := do
  modify fun d => (d.stack.map Entry.handle).foldr shut d
  modify fun d => { d with stack := [] }
  modify fun d => { d with current := none }
  modify (withPending none)

/-- Closes all that was opened, and gets ready to start from the top. -/
def rewind (readsLabel : Bool) : Run Desk Unit := do
  close
  modify fun d =>
    { d with
      scanner :=
        { d.scanner with
          readsLabel := readsLabel
          ended := none
          lineLag := 0
          tokenStart := none
          modeStart := none
          modeStack := []
          mode := d.scanner.defaultMode } }

/-- Puts the one input that is being read on the stack. -/
def mount (stream : Stream) : Run Desk Unit := do
  let handle ← allot stream
  modify fun d => { d with current := some handle }
  modify fun d => { d with stack := [{ handle := handle }] }

/-- Opens the master input. -/
def openMaster (readsLabel : Bool) : Run Desk Unit := do
  let d ← get
  let stream ←
    if readsLabel then pure (Stream.ofText d.scanner.master d.scanner.label)
    else atCursor (Scanner.openFile d.scanner.master "open_file" "Cannot open file " none)
  mount stream

/-- Starts reading the master input from the top. -/
def start (readsLabel : Bool) : Run Desk Unit := do
  rewind readsLabel
  openMaster readsLabel

/-- The full name of a file, seen from the directory of the input on top of the stack. -/
def fullName (d : Desk) (name : String) : String :=
  match d.stack with
  | top :: _ =>
    let directory := (d.streamOf top.handle).directory
    if Location.isAbsolute name || directory.isEmpty then name else Location.join directory name
  | [] => name

/-- Lays a token aside in the entry on top of a stack. -/
def layAside (token : Option Token) : List Entry → List Entry
  | [] => []
  | top :: below => { top with saved := token } :: below

/-- Puts an included input on the stack. -/
def stackUp (stream : Stream) (atEnd : Routine) : Run Desk Unit := do
  let handle ← allot stream
  modify fun d => { d with stack := layAside d.scanner.pending d.stack }
  modify (withPending none)
  modify fun d => { d with stack := { handle := handle, atEnd := atEnd } :: d.stack }
  modify fun d => { d with current := some handle }

/-- Goes on with a file, unless it is being read already. -/
def includeFile (name : String) (position : Option Position)
    (atEnd : Routine) : Run Desk String := do
  let d ← get
  let full := d.fullName name
  if d.stack.any fun entry =>
      (d.streamOf entry.handle).location? == some (Location.ofName full) then
    atCursor (Scanner.errorAt "include_recursion" ("Recursive inclusion of " ++ full ++ " detected")
      position .null)
  else
    let stream ← atCursor (Scanner.openFile full "bad_include" "Cannot open include file " position)
    stackUp stream atEnd
    pure full

/-- Runs a routine. -/
def perform : Routine → Run Desk (Option String × Value)
  | .setMode mode rest => do
    atCursor (Scanner.setMode mode)
    perform rest
  | .pushMode mode rest => do
    atCursor (Scanner.pushMode mode)
    perform rest
  | .popMode rest => do
    atCursor Scanner.popMode
    perform rest
  | .inject text length rest => do
    atCursor (Scanner.inject text length)
    perform rest
  | .includeFile name position atEnd rest => do
    let full ← includeFile name position atEnd
    perform (rest full)
  | .addMacro definition rest => do
    atCursor (modify (Scanner.addMacro definition))
    perform rest
  | .report severity id text position data rest => do
    atCursor (Scanner.report severity id text position data)
    perform rest
  | .pushBack token rest => do
    atCursor (Scanner.pushBack token)
    perform rest
  | .note label rest => do
    atCursor (modify (Scanner.noted label))
    perform rest
  | .look rest => do
    let d ← get
    perform (rest d.focus.position d.focus.mode)
  | .fail fault => Run.fail fault
  | .done kind value => pure (kind, value)

/-- Goes back from an entry that is done to the one below it. -/
def goBack (done parent : Entry) (below : List Entry) : Run Desk Unit := do
  modify fun d => { d with stack := parent :: below }
  modify (shut done.handle)
  let d ← get
  emit (.fileCompleted (d.streamOf done.handle).name)
  modify fun d => { d with current := some parent.handle }
  modify (withPending parent.saved)
  modify fun d => { d with stack := { parent with saved := none } :: below }

/-- Delivers what is pushed back, if anything is. -/
def deliver : Run Desk (Option Token) := do
  let token := (← get).scanner.pending
  modify (withPending none)
  pure token

/-- The end of the current input: the token to deliver, or none to go on with the
including input. -/
def endOfInput : Run Desk (Option Token) := do
  let d ← get
  if d.scanner.mode != d.scanner.defaultMode then atCursor Scanner.reportRunaway
  else
    match d.stack with
    | done :: parent :: below =>
      goBack done parent below
      discard (perform done.atEnd)
      deliver
    | _ => atCursor Scanner.rememberEnd

/-- Makes the token of a match. -/
def produce (p : TokenPattern) (m : Match) (start : Position) : Run Desk (Option Token) := do
  let (kind, value) ← match p.routine with
    | some routine => perform (routine m)
    | none => pure (p.kind, Value.text m.text)
  pure (kind.map (⟨·, value, some start⟩))

/-- Scans at the cursor: delivers a token, or none to scan again. -/
def scanAtCursor : Run Desk (Option Token) := do
  atCursor (modify Scanner.noting)
  let start := (← get).focus.position
  match ← atCursor Scanner.findMatch with
  | none => pure none
  | some (p, m) => produce p m start

/-- One round of scanning. -/
def scanRound : Run Desk (Option Token) := do
  if ← atCursor (Scanner.onStream Stream.readyNextLine) then
    atCursor (Scanner.onStream (modify Stream.cleanup))
    scanAtCursor
  else endOfInput

/-- The next token, scanned in at most `rounds` rounds. -/
def next (rounds : Nat) : Run Desk Token := do
  let d ← get
  match d.scanner.pending, d.scanner.ended with
  | some token, _ =>
    modify (withPending none)
    pure token
  | none, some token => pure token
  | none, none => if d.current.isNone then Run.refuse .notOpened else Run.repeated scanRound rounds

/-- Carries an operation out. -/
def carryOut : Operation → Run Desk Answer
  | .start readsLabel => do
    start readsLabel
    pure .nothing
  | .next rounds => do
    let token ← next rounds
    pure (.token token)
  | .pushBack token => do
    atCursor (Scanner.pushBack token)
    pure .nothing
  | .setMode mode => do
    atCursor (Scanner.setMode mode)
    pure .nothing
  | .pushMode mode => do
    atCursor (Scanner.pushMode mode)
    pure .nothing
  | .popMode => do
    atCursor Scanner.popMode
    pure .nothing
  | .includeFile name position atEnd => do
    let full ← includeFile name position atEnd
    pure (.name full)
  | .close => do
    close
    pure .nothing
  | .inject text length => do
    atCursor (Scanner.inject text length)
    pure .nothing
  | .addMacro definition => do
    atCursor (modify (Scanner.addMacro definition))
    pure .nothing
  | .addPattern mode p => do
    atCursor (modify (Scanner.extended mode p))
    pure .nothing
  | .report severity id text position data => do
    atCursor (Scanner.report severity id text position data)
    pure .nothing
  | .configure settings => do
    atCursor (modify (Scanner.configured settings))
    pure .nothing

/-- A desk after several operations. One that fails does not keep the others from being
carried out. -/
def after (ops : List Operation) (d : Desk) : Desk :=
  ops.foldl (fun d op => ((carryOut op).run d).state) d

-- ---------------------------------------------------------------------------
-- A desk and its scanner
-- ---------------------------------------------------------------------------

/-- The input of an entry. -/
def inputOf (d : Desk) (entry : Entry) : Input :=
  ⟨d.streamOf entry.handle, entry.saved, entry.atEnd⟩

/-- The scanner with the inputs on the stack. -/
def view (d : Desk) : Scanner := { d.scanner with inputs := d.stack.map d.inputOf }

/-- The current handle is that of the entry on top of the stack, and each entry has a
handle of its own. -/
structure Wired (d : Desk) : Prop where
  current : d.current = d.stack.head?.map Entry.handle
  distinct : (d.stack.map Entry.handle).Nodup
  allotted : ∀ entry ∈ d.stack, entry.handle < d.opened.length

/-- A desk whose parts go together, and its scanner. -/
structure Shows (d : Desk) (s : Scanner) : Prop where
  wired : Wired d
  view : s = d.view

/-- A run of desks comes to the same as one of scanners. -/
def Mirrors (x : Run Desk α) (y : Run Scanner α) : Prop :=
  ∀ d s, Shows d s → Alongside Shows (fun _ => True) x d y s

/-- A desk that does nothing mirrors a scanner that does nothing. -/
theorem mirrors_pure (a : α) : Mirrors (pure a) (pure a) := fun _ _ => alongside_pure a

/-- Both give up with the same fault. -/
theorem mirrors_fail (fault : Fault) : Mirrors (fail fault : Run Desk α) (fail fault) :=
  fun _ _ => alongside_fail trivial

/-- One thing after the other is mirrored if each is. -/
theorem mirrors_bind {x : Run Desk α} {y : Run Scanner α} {f : α → Run Desk β}
    {g : α → Run Scanner β}
    (h : Mirrors x y) (hrest : ∀ a, Mirrors (f a) (g a)) : Mirrors (x >>= f) (y >>= g) :=
  fun d s hs => (h d s hs).bind fun a d' s' hs' => hrest a d' s' hs'

/-- What a desk looks at is there to be seen in its view. -/
theorem mirrors_get {f : Desk → Run Desk α} {g : Scanner → Run Scanner α}
    (h : ∀ d, Wired d → Alongside Shows (fun _ => True) (f d) d (g d.view) d.view) :
    Mirrors (get >>= f) (get >>= g) := by
  rintro d _ ⟨hwired, rfl⟩
  exact alongside_get_bind (h d hwired)

/-- A change of a desk shows as a change of its view. -/
theorem mirrors_modify {f : Desk → Desk} {g : Scanner → Scanner}
    (h : ∀ d, Wired d → Shows (f d) (g d.view)) : Mirrors (modify f) (modify g) := by
  rintro d _ ⟨hwired, rfl⟩
  exact alongside_modify (h d hwired)

/-- The value does not matter. -/
theorem mirrors_discard {x : Run Desk α} {y : Run Scanner α} (h : Mirrors x y) :
    Mirrors (discard x) (discard y) :=
  fun d s hs => alongside_map (fun _ => ()) (h d s hs)

/-- What is mirrored is mirrored as often as it is repeated. -/
theorem mirrors_repeated {step : Run Desk (Option α)} {step' : Run Scanner (Option α)}
    (h : Mirrors step step') (n : Nat) : Mirrors (repeated step n) (repeated step' n) := by
  refine fun d s hs => alongside_iterate trivial
    (fun _ d' s' hs' => (h d' s' hs').bind fun found _ _ h'' => ?_) n () hs
  cases found with
  | none => exact alongside_pure _ h''
  | some a => exact alongside_pure _ h''

/-- Two runs that hand back the same, and leave a desk and its scanner. -/
theorem alongside_of_shows {x : Run Desk α} {y : Run Scanner α} {s s' : Scanner} {a : α}
    {trace : List Event} (hx : x.run d = ⟨.ok a, d', trace⟩) (hy : y.run s = ⟨.ok a, s', trace⟩)
    (h : Shows d' s') : Alongside Shows (fun _ => True) x d y s := by
  refine ⟨?_, ?_, ?_, fun _ _ => trivial⟩
  · rw [hx, hy]
  · rw [hx, hy]
  · rw [hx, hy]
    exact h

/-- An entry shows an input of a scanner, for which only the stream of its handle counts. -/
theorem inputOf_congr {entry : Entry} (h : d'.streamOf entry.handle = d.streamOf entry.handle) :
    d'.inputOf entry = d.inputOf entry := by
  unfold inputOf
  rw [h]

/-- The current input of the scanner is that of the current handle. -/
theorem Wired.current?_view (h : Wired d) : d.view.current? = d.current.map d.streamOf := by
  unfold Scanner.current? view
  rw [h.current, List.head?_map, Option.map_map, Option.map_map]
  rfl

/-- At its cursor a desk sees what the scanner sees of its current input. -/
theorem Wired.focus_eq (h : Wired d) : d.focus = d.view.focused := by
  have hinputs : d.current.toList.map ({ stream := d.streamOf · : Input }) =
      (d.current.map d.streamOf).toList.map ({ stream := · }) := by
    cases d.current with
    | none => rfl
    | some handle => rfl
  unfold focus Scanner.focused
  rw [hinputs, h.current?_view]
  rfl

/-- The handle of a stream that has changed leads to what it has become. -/
theorem streamOf_modify {handle : Nat} (change : Stream → Stream) (h : handle < d.opened.length) :
    List.getD (d.opened.modify handle change) handle default = change (d.streamOf handle) := by
  unfold streamOf
  rw [List.getD_eq_getElem?_getD, List.getD_eq_getElem?_getD, List.getElem?_modify_eq,
    List.getElem?_eq_getElem h]
  rfl

/-- All other handles lead to the same streams. -/
theorem streamOf_modify_ne {changed handle : Nat}
    (change : Stream → Stream) (h : changed ≠ handle) :
    List.getD (d.opened.modify changed change) handle default = d.streamOf handle := by
  unfold streamOf
  rw [List.getD_eq_getElem?_getD, List.getElem?_modify_ne _ _ h, ← List.getD_eq_getElem?_getD]

/-- A scanner is made of its inputs and of what it is at its cursor. -/
theorem focused_with_inputs {t : Scanner} {inputs : List Input} (h : t.inputs = inputs) :
    { t.focused with inputs := inputs } = t := by
  subst h
  rfl

/-- Work at the cursor changes the input of the entry on top of the stack. -/
theorem Wired.worked (h : Wired d) {t : Scanner} (hread : Scanner.ReadOn d.view.inputs t.inputs) :
    Shows (worked t.focused d) t := by
  have hinputs : d.view.inputs = d.stack.map d.inputOf := rfl
  have hcurrent := h.current
  rw [hinputs] at hread
  cases hstack : d.stack with
  | nil =>
    rw [hstack] at hread hcurrent
    have hnone : Desk.worked t.focused d = { d with scanner := t.focused } := by
      unfold Desk.worked
      rw [hcurrent]
      rfl
    rw [hnone]
    refine ⟨⟨h.current, h.distinct, h.allotted⟩, ?_⟩
    unfold view
    rw [hstack]
    exact (focused_with_inputs hread.eq_nil).symm
  | cons top below =>
    have hdistinct := h.distinct
    have hallotted := h.allotted
    rw [hstack] at hread hcurrent hdistinct hallotted
    obtain ⟨stream, htop⟩ : ∃ stream,
        t.inputs = { d.inputOf top with stream := stream } :: below.map d.inputOf := by
      generalize t.inputs = inputs at hread
      cases hread with
      | @cons _ _ stream _ => exact ⟨stream, rfl⟩
    have hset : Desk.worked t.focused d =
        { d with scanner := t.focused, opened := d.opened.modify top.handle fun _ => stream } := by
      unfold Desk.worked
      rw [hcurrent, Scanner.current?_focused, Scanner.current?_of_inputs htop, ← List.set_eq_modify]
      rfl
    rw [hset]
    refine ⟨⟨h.current, h.distinct, fun entry hentry => ?_⟩, ?_⟩
    · rw [List.length_modify]
      exact h.allotted entry hentry
    · have htopOpen : top.handle < d.opened.length := hallotted top List.mem_cons_self
      unfold view
      rw [hstack]
      refine (focused_with_inputs ?_).symm
      rw [htop, List.map_cons]
      refine List.cons_eq_cons.mpr ⟨?_, List.map_congr_left fun entry hentry =>
        (inputOf_congr ?_).symm⟩
      · show _ =
          Input.mk (List.getD (d.opened.modify top.handle _) top.handle default) top.saved top.atEnd
        rw [streamOf_modify _ htopOpen]
        rfl
      · have hne : top.handle ≠ entry.handle := fun hsame =>
          (List.nodup_cons.mp hdistinct).1 (hsame ▸ List.mem_map_of_mem hentry)
        exact streamOf_modify_ne _ hne

/-- **Work at the cursor** of a desk is that of its scanner. -/
theorem mirrors_atCursor {x : Run Scanner α} (hx : Solitary x) : Mirrors (atCursor x) x := by
  rintro d _ ⟨hwired, rfl⟩
  have hrun : (atCursor x).run d =
      ⟨(x.run d.view).result, worked (x.run d.view).state.focused d, (x.run d.view).trace⟩ := by
    have halone := hx.alone d.view
    rw [← hwired.focus_eq] at halone
    show (⟨(x.run d.focus).result, worked (x.run d.focus).state d,
      (x.run d.focus).trace⟩ : Outcome Desk α) = _
    rw [halone]
  constructor
  · rw [hrun]
  · rw [hrun]
  · rw [hrun]
    exact hwired.worked (hx.inputs d.view)
  · exact fun _ _ => trivial

-- ---------------------------------------------------------------------------
-- Inputs
-- ---------------------------------------------------------------------------

/-- Closing handles changes what they lead to, and nothing else. -/
theorem foldr_shut (handles : List Nat) (d : Desk) :
    ∃ opened, handles.foldr shut d = { d with opened := opened } := by
  induction handles with
  | nil => exact ⟨d.opened, rfl⟩
  | cons handle rest ih =>
    obtain ⟨opened, h⟩ := ih
    rw [List.foldr_cons, h]
    exact ⟨_, rfl⟩

/-- Closing shuts all inputs one after the other, takes the stack away, and lets go of the current
handle. -/
theorem mirrors_close : Mirrors close (modify Scanner.close) := by
  rintro d _ ⟨-, rfl⟩
  obtain ⟨opened, hshut⟩ := foldr_shut (d.stack.map Entry.handle) d
  have hrun : close.run d =
      ⟨.ok (), ⟨{ d.scanner with pending := none }, opened, [], none⟩, []⟩ := by
    unfold close
    rw [run_bind, run_modify, hshut]
    rfl
  have hshows : Shows ⟨{ d.scanner with pending := none }, opened, [], none⟩ d.view.close :=
    ⟨⟨rfl, List.nodup_nil, fun _ hentry => nomatch hentry⟩, rfl⟩
  constructor
  · rw [hrun]
    rfl
  · rw [hrun]
    rfl
  · rw [hrun]
    exact hshows
  · exact fun _ _ => trivial

/-- After it was rewound a desk has no input, just as the scanner. -/
theorem mirrors_rewind (readsLabel : Bool) :
    Mirrors (rewind readsLabel) (modify (Scanner.rewound readsLabel)) := by
  have hboth : Mirrors (rewind readsLabel) (do
      modify Scanner.close
      modify fun s =>
        { s with
          readsLabel := readsLabel
          ended := none
          lineLag := 0
          tokenStart := none
          modeStart := none
          modeStack := []
          mode := s.defaultMode }) :=
    mirrors_bind mirrors_close fun _ => mirrors_modify fun d hwired =>
      ⟨⟨hwired.current, hwired.distinct, hwired.allotted⟩, rfl⟩
  exact fun d s hs => (hboth d s hs).congr rfl

/-- Handles that were given before lead to the same inputs. -/
theorem streamOf_append {d : Desk} {stream : Stream} {handle : Nat} (h : handle < d.opened.length) :
    List.getD (d.opened ++ [stream]) handle default = d.streamOf handle := by
  unfold streamOf
  rw [List.getD_eq_getElem?_getD, List.getElem?_append_left h, ← List.getD_eq_getElem?_getD]

/-- The handle that is given next leads to the new input. -/
theorem getD_append_length (opened : List Stream) (stream : Stream) :
    List.getD (opened ++ [stream]) opened.length default = stream := by
  rw [List.getD_eq_getElem?_getD, List.getElem?_concat_length]
  rfl

/-- The one input that is mounted is that of the scanner. -/
theorem mirrors_mount (stream : Stream) :
    Mirrors (mount stream) (modify fun s => { s with inputs := [{ stream := stream }] }) := by
  rintro d _ ⟨-, rfl⟩
  refine ⟨rfl, rfl, ⟨⟨rfl, List.nodup_singleton _, ?_⟩, ?_⟩, fun _ _ => trivial⟩
  · intro entry hentry
    obtain rfl := List.mem_singleton.mp hentry
    show d.opened.length < (d.opened ++ [stream]).length
    simp
  · show ({ d.scanner with inputs := [⟨stream, none, .idle⟩] } : Scanner) =
      { d.scanner with
        inputs := [⟨List.getD (d.opened ++ [stream]) d.opened.length default, none, .idle⟩] }
    rw [getD_append_length]

/-- The master input is opened by the scanner without inputs, so for the desk it is the same. -/
theorem mirrors_openMaster (readsLabel : Bool) :
    Mirrors (openMaster readsLabel) (Scanner.openMaster readsLabel) := by
  refine mirrors_get fun d hwired => ?_
  have hshows : Shows d d.view := ⟨hwired, rfl⟩
  dsimp only
  split
  · exact mirrors_bind (mirrors_pure _) mirrors_mount d _ hshows
  · exact mirrors_bind (mirrors_atCursor (Scanner.confined_openFile _ _ _ _).solitary)
      mirrors_mount d _ hshows

/-- **Starting** rewinds and opens the master input. -/
theorem mirrors_start (readsLabel : Bool) :
    Mirrors (start readsLabel) (Scanner.start readsLabel) := by
  rw [Scanner.start_eq]
  exact mirrors_bind (mirrors_rewind readsLabel) fun _ => mirrors_openMaster readsLabel

/-- The entry on top of the stack has the current handle. -/
theorem Wired.fullName_eq (h : Wired d) (name : String) :
    d.view.fullName name = d.fullName name := by
  unfold Scanner.fullName fullName
  rw [h.current?_view, h.current]
  cases d.stack with
  | nil => rfl
  | cons top below => rfl

/-- Laying a token aside leaves the handles. -/
theorem handle_layAside (token : Option Token) (stack : List Entry) :
    (layAside token stack).map Entry.handle = stack.map Entry.handle := by
  cases stack with
  | nil => rfl
  | cons top below => rfl

/-- A desk after an included input was put on its stack. -/
def stacked (stream : Stream) (atEnd : Routine) (d : Desk) : Desk where
  scanner := { d.scanner with pending := none }
  opened := d.opened ++ [stream]
  stack := { handle := d.opened.length, atEnd := atEnd } :: layAside d.scanner.pending d.stack
  current := some d.opened.length

/-- An included input gets a new handle, which becomes the current one and is on top of the
stack. -/
theorem Wired.stacked (h : Wired d) (stream : Stream) (atEnd : Routine) :
    Wired (d.stacked stream atEnd) := by
  have hold : ∀ handle ∈ (layAside d.scanner.pending d.stack).map Entry.handle,
      handle < d.opened.length := by
    rw [handle_layAside]
    exact List.forall_mem_map.mpr h.allotted
  refine ⟨rfl, List.nodup_cons.mpr ⟨fun hmem => Nat.lt_irrefl _ (hold _ hmem), ?_⟩, ?_⟩
  · rw [handle_layAside]
    exact h.distinct
  · show ∀ entry ∈ _ :: layAside d.scanner.pending d.stack, entry.handle <
      (d.opened ++ [stream]).length
    rw [List.length_append, List.length_singleton]
    refine List.forall_mem_cons.mpr ⟨Nat.lt_succ_self _, fun entry hentry => ?_⟩
    exact Nat.lt_succ_of_lt (hold entry.handle (List.mem_map_of_mem hentry))

/-- It shows as the input that a scanner puts in front of the others. -/
theorem Wired.view_stacked (h : Wired d) (stream : Stream) (atEnd : Routine) :
    (d.stacked stream atEnd).view = d.view.including stream atEnd := by
  have htop : (d.stacked stream atEnd).streamOf d.opened.length = stream := getD_append_length _ _
  have hold : ∀ entry ∈ d.stack,
      (d.stacked stream atEnd).streamOf entry.handle = d.streamOf entry.handle :=
    fun entry hentry => streamOf_append (h.allotted entry hentry)
  have hbelow : (layAside d.scanner.pending d.stack).map (d.stacked stream atEnd).inputOf =
      (d.view.including stream atEnd).inputs.tail := by
    unfold Scanner.including view
    dsimp only [List.tail_cons]
    cases hstack : d.stack with
    | nil => rfl
    | cons top below =>
      rw [hstack] at hold
      refine List.cons_eq_cons.mpr ⟨?_, ?_⟩
      · show Input.mk _ _ _ = Input.mk _ _ _
        rw [hold top List.mem_cons_self]
        rfl
      · exact List.map_congr_left fun entry hentry =>
          inputOf_congr (hold entry (List.mem_cons_of_mem _ hentry))
  show ({ d.scanner with
            inputs := Input.mk ((d.stacked stream atEnd).streamOf d.opened.length) none atEnd :: _,
            pending := none } : Scanner) = _
  rw [htop, hbelow]
  rfl

/-- The assignments of stacking up come to one change of the scanner. -/
theorem mirrors_stackUp (stream : Stream) (atEnd : Routine) :
    Mirrors (stackUp stream atEnd) (modify fun s => s.including stream atEnd) := by
  rintro d _ ⟨hwired, rfl⟩
  have hshows : Shows (d.stacked stream atEnd) (d.view.including stream atEnd) :=
    ⟨hwired.stacked stream atEnd, (hwired.view_stacked stream atEnd).symm⟩
  exact alongside_of_shows rfl rfl hshows

/-- **Including a file.** The names on the stack are those of the inputs of the view, so recursion
is refused alike. -/
theorem mirrors_includeFile (name : String) (position : Option Position) (atEnd : Routine) :
    Mirrors (includeFile name position atEnd) (Scanner.includeFile name position atEnd) := by
  refine mirrors_get fun d hwired => ?_
  have hshows : Shows d d.view := ⟨hwired, rfl⟩
  have hany (location : Location) :
      (d.view.inputs.any fun input => input.stream.location? == some location) =
      d.stack.any fun entry => (d.streamOf entry.handle).location? == some location := List.any_map
  rw [hwired.fullName_eq]
  dsimp only
  rw [hany]
  split
  · exact mirrors_atCursor (Scanner.confined_errorAt _ _ _ _).solitary d _ hshows
  · refine mirrors_bind (mirrors_atCursor (Scanner.confined_openFile _ _ _ _).solitary)
      (fun stream => ?_) d _ hshows
    exact mirrors_bind (mirrors_stackUp stream atEnd) fun _ => mirrors_pure _

-- ---------------------------------------------------------------------------
-- Routines and scanning
-- ---------------------------------------------------------------------------

/-- **Routines** do with a desk what they do with a scanner. -/
theorem mirrors_perform (routine : Routine) :
    Mirrors (perform routine) (Scanner.perform routine) := by
  induction routine with
  | setMode mode rest ih =>
    exact mirrors_bind (mirrors_atCursor (Scanner.solitary_setMode mode)) fun _ => ih
  | pushMode mode rest ih =>
    exact mirrors_bind (mirrors_atCursor (Scanner.solitary_pushMode mode)) fun _ => ih
  | popMode rest ih => exact mirrors_bind (mirrors_atCursor Scanner.solitary_popMode) fun _ => ih
  | inject text length rest ih =>
    exact mirrors_bind (mirrors_atCursor (Scanner.confined_inject text length).solitary) fun _ => ih
  | includeFile name position atEnd rest _ ih =>
    exact mirrors_bind (mirrors_includeFile name position atEnd) ih
  | addMacro definition rest ih =>
    exact mirrors_bind (mirrors_atCursor (Scanner.solitary_addMacro definition)) fun _ => ih
  | report severity id text position data rest ih =>
    exact mirrors_bind (mirrors_atCursor
      (Scanner.confined_report severity id text position data).solitary) fun _ => ih
  | pushBack token rest ih =>
    exact mirrors_bind (mirrors_atCursor (Scanner.solitary_pushBack token)) fun _ => ih
  | note label rest ih =>
    exact mirrors_bind (mirrors_atCursor (Scanner.solitary_noted label)) fun _ => ih
  | look rest ih =>
    refine mirrors_get fun d hwired => ?_
    have hposition : d.focus.position = d.view.position := by
      rw [hwired.focus_eq, Scanner.position_focused]
    rw [hposition]
    exact ih _ _ d _ ⟨hwired, rfl⟩
  | fail fault => exact mirrors_fail fault
  | done kind value => exact mirrors_pure _

/-- A token pushed back is no matter of the inputs. -/
theorem mirrors_withPending (token : Option Token) :
    Mirrors (modify (withPending token)) (modify fun s => { s with pending := token }) :=
  mirrors_modify fun _ hwired => ⟨⟨hwired.current, hwired.distinct, hwired.allotted⟩, rfl⟩

/-- What is pushed back at a desk is what the scanner has pushed back. -/
theorem mirrors_deliver : Mirrors deliver Scanner.deliver :=
  mirrors_get fun _ hwired =>
    mirrors_bind (mirrors_withPending none) (fun _ => mirrors_pure _) _ _ ⟨hwired, rfl⟩

/-- A desk after it has gone back from an entry that is done to the one below it. -/
def wentBack (done parent : Entry) (below : List Entry) (d : Desk) : Desk where
  scanner := { d.scanner with pending := parent.saved }
  opened := d.opened.modify done.handle Stream.closed
  stack := { parent with saved := none } :: below
  current := some parent.handle

/-- Going back to the entry below is a single change after all, if the handle that is left was given
out. -/
theorem goBack_run {done : Entry}
    (parent : Entry) (below : List Entry) (hopen : done.handle < d.opened.length) :
    (goBack done parent below).run d =
      ⟨.ok (), d.wentBack done parent below, [.fileCompleted (d.streamOf done.handle).name]⟩ := by
  show (⟨.ok (), d.wentBack done parent below, [.fileCompleted (List.getD
    (d.opened.modify done.handle Stream.closed) done.handle default).name]⟩ : Outcome Desk Unit) = _
  rw [streamOf_modify _ hopen]
  rfl

/-- Going back makes the handle of the parent current. -/
theorem Wired.wentBack (h : Wired d) {done parent : Entry} {below : List Entry}
    (hstack : d.stack = done :: parent :: below) : Wired (d.wentBack done parent below) := by
  have hdistinct := h.distinct
  have hallotted := h.allotted
  rw [hstack] at hdistinct hallotted
  obtain ⟨-, hallotted'⟩ := List.forall_mem_cons.mp hallotted
  refine ⟨rfl, (List.nodup_cons.mp hdistinct).2, fun entry hentry => ?_⟩
  show entry.handle < (d.opened.modify done.handle Stream.closed).length
  rw [List.length_modify]
  exact (List.forall_mem_cons (p := fun entry : Entry => entry.handle < d.opened.length)
    (a := { parent with saved := none })).mpr (List.forall_mem_cons.mp hallotted') entry hentry

/-- Its view is the scanner with the inputs below, where nothing is kept aside any more. -/
theorem Wired.view_wentBack (h : Wired d) {done parent : Entry} {below : List Entry}
    (hstack : d.stack = done :: parent :: below) : (d.wentBack done parent below).view =
      { d.view with
        inputs := { d.inputOf parent with saved := none } :: below.map d.inputOf
        pending := parent.saved } := by
  have hdistinct := h.distinct
  rw [hstack] at hdistinct
  obtain ⟨hdone, -⟩ := List.nodup_cons.mp hdistinct
  have hothers : ∀ entry ∈ parent :: below,
      (d.wentBack done parent below).streamOf entry.handle = d.streamOf entry.handle := by
    intro entry hentry
    have hne : done.handle ≠ entry.handle := fun hsame => hdone (hsame ▸ List.mem_map_of_mem hentry)
    exact streamOf_modify_ne _ hne
  have hparent : (d.wentBack done parent below).inputOf { parent with saved := none } =
      { d.inputOf parent with saved := none } := by
    show Input.mk _ _ _ = Input.mk _ _ _
    rw [hothers parent List.mem_cons_self]
    rfl
  have hbelow : below.map (d.wentBack done parent below).inputOf = below.map d.inputOf :=
    List.map_congr_left fun entry hentry =>
      inputOf_congr (hothers entry (List.mem_cons_of_mem _ hentry))
  show ({ d.scanner with
    inputs := (d.wentBack done parent below).inputOf { parent with saved := none } ::
      below.map (d.wentBack done parent below).inputOf,
    pending := parent.saved } : Scanner) = _
  rw [hparent, hbelow]
  rfl

/-- So a desk goes back as a scanner does. -/
theorem alongside_goBack (hwired : Wired d) {done parent : Entry} {below : List Entry}
    (hstack : d.stack = done :: parent :: below) :
    Alongside Shows (fun _ => True) (goBack done parent below) d
      (Scanner.goBack (d.inputOf done) (d.inputOf parent) (below.map d.inputOf)) d.view := by
  have hopen : done.handle < d.opened.length :=
    hwired.allotted done (by rw [hstack]; exact List.mem_cons_self)
  exact alongside_of_shows (goBack_run parent below hopen) rfl
    ⟨hwired.wentBack hstack, (hwired.view_wentBack hstack).symm⟩

/-- What two runs come to is all that matters of them. -/
theorem alongside_of_run {x x' : Run Desk α} {y y' : Run Scanner α} {s : Scanner}
    (h : Alongside Shows (fun _ => True) x d y s) (hx : x'.run d = x.run d)
    (hy : y'.run s = y.run s) : Alongside Shows (fun _ => True) x' d y' s := by
  obtain ⟨hresult, htrace, hstates, hfaults⟩ := h.congr hy
  constructor <;> rw [hx]
  · exact hresult
  · exact htrace
  · exact hstates
  · exact hfaults

/-- Looking at a desk goes on from the same desk. -/
theorem run_get_bind (f : Desk → Run Desk α) (d : Desk) : (get >>= f).run d = (f d).run d := by
  rw [run_bind, run_get]
  dsimp only
  rw [List.append_nil]

/-- **The end of an input.** The routine left for it runs when the current handle is that of the
entry below. -/
theorem mirrors_endOfInput : Mirrors endOfInput Scanner.endOfInput := by
  rintro d _ ⟨hwired, rfl⟩
  have hshows : Shows d d.view := ⟨hwired, rfl⟩
  have hbegin : endOfInput.run d =
    Run.run (if d.scanner.mode != d.scanner.defaultMode then
        atCursor Scanner.reportRunaway
      else
        match d.stack with
        | done :: parent :: below => do
          goBack done parent below
          discard (perform done.atEnd)
          deliver
        | _ => atCursor Scanner.rememberEnd) d := run_get_bind _ d
  by_cases hmode : d.view.mode = d.view.defaultMode
  · have hhome : (d.scanner.mode != d.scanner.defaultMode) = false := bne_eq_false_iff_eq.mpr hmode
    rw [hhome, if_neg Bool.false_ne_true] at hbegin
    -- at the end of the last input
    have hlast (hlength : d.view.inputs.length ≤ 1)
        (hdesk : endOfInput.run d = (atCursor Scanner.rememberEnd).run d) :
        Alongside Shows (fun _ => True) endOfInput d Scanner.endOfInput d.view :=
      alongside_of_run (mirrors_atCursor Scanner.solitary_rememberEnd d _ hshows) hdesk
        (Scanner.endOfInput_run_of_last hmode hlength)
    have hinputs : d.view.inputs = d.stack.map d.inputOf := rfl
    match hstack : d.stack with
    | [] =>
      rw [hstack] at hbegin hinputs
      exact hlast (hinputs ▸ Nat.zero_le 1) hbegin
    | [entry] =>
      rw [hstack] at hbegin hinputs
      exact hlast (hinputs ▸ Nat.le_refl 1) hbegin
    | done :: parent :: below =>
      rw [hstack] at hbegin hinputs
      refine alongside_of_run ?_ hbegin (Scanner.endOfInput_run_of_parent hmode hinputs)
      refine (alongside_goBack hwired hstack).bind fun _ d' s' h => ?_
      exact mirrors_bind (mirrors_discard (mirrors_perform done.atEnd))
        (fun _ => mirrors_deliver) d' s' h
  · have haway : (d.scanner.mode != d.scanner.defaultMode) = true := bne_iff_ne.mpr hmode
    rw [if_pos haway] at hbegin
    exact alongside_of_run (mirrors_atCursor Scanner.solitary_reportRunaway d _ hshows) hbegin
      (Scanner.endOfInput_run_of_away hmode)

/-- The token of a match is made by a routine, or from the text. -/
theorem mirrors_produce (p : TokenPattern) (m : Match) (start : Position) :
    Mirrors (produce p m start) (Scanner.produce p m start) := by
  unfold produce Scanner.produce
  cases p.routine with
  | none => exact mirrors_bind (mirrors_pure _) fun _ => mirrors_pure _
  | some routine => exact mirrors_bind (mirrors_perform _) fun _ => mirrors_pure _

/-- Scanning at the cursor is work at the cursor, but for the routine of the pattern. -/
theorem mirrors_scanAtCursor : Mirrors scanAtCursor Scanner.scanAtCursor := by
  rw [Scanner.scanAtCursor_eq]
  refine mirrors_bind (mirrors_atCursor Scanner.solitary_noting) fun _ =>
    mirrors_get fun d hwired => ?_
  have hposition : d.focus.position = d.view.position := by
    rw [hwired.focus_eq, Scanner.position_focused]
  dsimp only
  rw [hposition]
  refine mirrors_bind (mirrors_atCursor Scanner.confined_findMatch.solitary) (fun found => ?_) d _
    ⟨hwired, rfl⟩
  cases found with
  | none => exact mirrors_pure _
  | some found => exact mirrors_produce _ _ _

/-- **A round.** It scans at the cursor, or deals with the end of an input. -/
theorem mirrors_scanRound : Mirrors scanRound Scanner.scanRound := by
  have hready := mirrors_atCursor (Scanner.Confined.onStream Stream.stays_readyNextLine).solitary
  have hcleanup := mirrors_atCursor (Scanner.Confined.onStream Stream.stays_cleanup).solitary
  refine mirrors_bind hready fun ready => ?_
  cases ready with
  | true => exact mirrors_bind hcleanup fun _ => mirrors_scanAtCursor
  | false => exact mirrors_endOfInput

/-- The next token takes as many rounds at a desk as it takes the scanner. -/
theorem mirrors_next (rounds : Nat) : Mirrors (next rounds) (Scanner.next rounds) := by
  rintro d _ ⟨hwired, rfl⟩
  have hshows : Shows d d.view := ⟨hwired, rfl⟩
  have hinputs : d.view.inputs.isEmpty = d.current.isNone := by
    show (d.stack.map d.inputOf).isEmpty = _
    rw [hwired.current]
    cases d.stack with
    | nil => rfl
    | cons top below => rfl
  have hpending : d.view.pending = d.scanner.pending := rfl
  have hended : d.view.ended = d.scanner.ended := rfl
  refine alongside_get_bind ?_
  rw [hpending, hended]
  cases d.scanner.pending with
  | some token =>
    have hdelivered : Alongside Shows (fun _ => True) (modify (withPending none)) d
        (Run.set { d.view with pending := none }) d.view :=
      (mirrors_withPending none d _ hshows).congr rfl
    exact hdelivered.bind fun _ _ _ => alongside_pure token
  | none =>
    cases d.scanner.ended with
    | some token => exact mirrors_pure token d _ hshows
    | none =>
      dsimp only
      rw [hinputs]
      split
      · exact mirrors_fail _ d _ hshows
      · exact mirrors_repeated mirrors_scanRound rounds d _ hshows

/-- **Operations** of a desk are those of its scanner. -/
theorem mirrors_carryOut (op : Operation) : Mirrors (carryOut op) (Scanner.carryOut op) := by
  have hcarry {α : Type} {x : Run Desk α} {y : Run Scanner α} {answer : α → Answer}
      (h : Mirrors x y) :
      Mirrors (x >>= fun a => pure (answer a)) (y >>= fun a => pure (answer a)) :=
    mirrors_bind h fun _ => mirrors_pure _
  cases op with
  | start readsLabel => exact hcarry (mirrors_start readsLabel)
  | next rounds => exact hcarry (mirrors_next rounds)
  | pushBack token => exact hcarry (mirrors_atCursor (Scanner.solitary_pushBack token))
  | setMode mode => exact hcarry (mirrors_atCursor (Scanner.solitary_setMode mode))
  | pushMode mode => exact hcarry (mirrors_atCursor (Scanner.solitary_pushMode mode))
  | popMode => exact hcarry (mirrors_atCursor Scanner.solitary_popMode)
  | includeFile name position atEnd => exact hcarry (mirrors_includeFile name position atEnd)
  | close => exact hcarry mirrors_close
  | inject text length =>
    exact hcarry (mirrors_atCursor (Scanner.confined_inject text length).solitary)
  | addMacro definition => exact hcarry (mirrors_atCursor (Scanner.solitary_addMacro definition))
  | addPattern mode p =>
    exact hcarry (mirrors_atCursor (Scanner.solitary_modify (fun _ => rfl) fun _ => rfl))
  | report severity id text position data =>
    exact hcarry
      (mirrors_atCursor (Scanner.confined_report severity id text position data).solitary)
  | configure settings =>
    exact hcarry (mirrors_atCursor (Scanner.solitary_modify (fun _ => rfl) fun _ => rfl))

/-- The desk of a scanner that has no inputs. -/
def of (s : Scanner) : Desk := { scanner := s }

/-- A scanner without inputs is shown by a desk with none. -/
theorem shows_of {s : Scanner} (h : s.inputs = []) : Shows (of s) s := by
  refine ⟨⟨rfl, List.nodup_nil, fun _ hentry => nomatch hentry⟩, ?_⟩
  show s = { s with inputs := [] }
  rw [← h]

/-- After any operations a desk goes together, and shows what its scanner would be. -/
theorem Shows.after {s : Scanner} (h : Shows d s) (ops : List Operation) :
    Shows (after ops d) (Scanner.after ops s) := by
  induction ops generalizing d s with
  | nil => exact h
  | cons op rest ih => exact ih (mirrors_carryOut op d s h).states

end Desk

end GrammarEngine
