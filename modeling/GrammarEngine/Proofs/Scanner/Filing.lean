import GrammarEngine.Proofs.Scanner.Desk
import GrammarEngine.Proofs.Scanner.Inputs
import Mathlib.Data.Finset.Option
import Mathlib.Data.Finset.Dedup

/-!
# The file stack

Whatever is done with a scanner, its inputs are in order: no file is among them twice, and a token
is laid aside for an input only while another one is read (`InOrder`). Each change of a scanner
keeps that. Files that are read are on the disk, so inputs nest no deeper than there are files, and
one more for the input that has none. The disk may be changed while the scanner is at work, so the
files are those that have been on it at any time (`placesOf`).

What is so of the inputs is so of the stack of a desk, where besides the current handle is always
that of the entry on top.

Main results:

* `InOrder.turns` — each change of a scanner keeps its inputs in order.
* `inOrder_after` — they are in order after any operations.
* `stack_in_order` — the stack of a desk after any operations.
-/

namespace GrammarEngine

open Run

-- ---------------------------------------------------------------------------
-- Places of files
-- ---------------------------------------------------------------------------

/-- The places where there are files. -/
def Disk.places (disk : Disk) : Finset Location := (disk.files.map Prod.fst).toFinset

namespace Disk

variable {disk : Disk} {content : Content}

theorem mem_places_of_entry {l : Location}
    (h : disk.entry l = .file content) : l ∈ disk.places := by
  unfold entry at h
  split at h
  · next content' hlookup =>
    obtain ⟨before, behind, hfiles, -⟩ := List.lookup_eq_some_iff.mp hlookup
    have hmem : (l, content') ∈ disk.files :=
      hfiles ▸ List.mem_append_right before List.mem_cons_self
    exact List.mem_toFinset.mpr (List.mem_map_of_mem hmem)
  · split at h
    · cases h
    · split at h <;> cases h

/-- Components that lead to a file lead to a place where there is one. -/
theorem mem_places_of_follow {l : Location} {components : List String}
    (h : disk.follow l components = .ok content) :
    components.foldl Location.step l ∈ disk.places := by
  induction components generalizing l with
  | nil =>
    unfold follow at h
    split at h
    · next hentry => exact mem_places_of_entry hentry
    all_goals cases h
  | cons component rest ih =>
    unfold follow at h
    split at h
    · cases h
    · exact ih h
    · cases h

theorem mem_places_of_read {name : String} {text : List Char} (h : disk.read name = .ok text) :
    Location.ofName name ∈ disk.places := by
  unfold read at h
  split at h
  · cases h
  · split at h
    · cases h
    · obtain ⟨content, hfollow, -⟩ := bind_eq_ok.mp h
      exact mem_places_of_follow hfollow

end Disk

/-- What is opened is a file that is on the disk. -/
theorem Stream.mem_places_of_file {disk : Disk} {name : String} {stream : Stream}
    (h : Stream.ofFile? disk name = .ok stream) : stream.location? ∈ disk.places.insertNone := by
  rw [Scanner.location?_of_file h]
  unfold Stream.ofFile? at h
  obtain ⟨text, hread, -⟩ := bind_eq_ok.mp h
  exact Finset.some_mem_insertNone.mpr (Disk.mem_places_of_read hread)

namespace Scanner

variable {s t : Scanner} {places : Finset Location} {master : String} {lexicon : Lexicon}
  {defaultMode : Mode} {made : Scanner}

/-- The places of files that operations put on the disk. -/
def placesOf : List Operation → Finset Location
  | [] => ∅
  | .configure settings :: rest => settings.disk.places ∪ placesOf rest
  | _ :: rest => placesOf rest

theorem subset_placesOf {settings : Settings} {ops : List Operation}
    (h : .configure settings ∈ ops) : settings.disk.places ⊆ placesOf ops := by
  induction ops with
  | nil => cases h
  | cons op rest ih =>
    rcases List.mem_cons.mp h with rfl | hmem
    · exact Finset.subset_union_left
    · have hrest := ih hmem
      cases op with
      | configure other => exact hrest.trans Finset.subset_union_right
      | _ => exact hrest

-- ---------------------------------------------------------------------------
-- Inputs in order
-- ---------------------------------------------------------------------------

/-- Inputs in order: no file is read twice at a time, all are among the files that there have been,
and for the current input no token is laid aside. -/
structure InOrder (places : Finset Location) (inputs : List Input) : Prop where
  distinct : (inputs.map (·.stream.location?)).Nodup
  known : ∀ input ∈ inputs, input.stream.location? ∈ places.insertNone
  unsaved : ∀ top ∈ inputs.head?, top.saved = none

theorem InOrder.nil : InOrder places [] := ⟨List.nodup_nil, nofun, nofun⟩

/-- Inputs in order nest no deeper than there are files, and one more. -/
theorem InOrder.length_le {inputs : List Input} (h : InOrder places inputs) :
    inputs.length ≤ places.card + 1 := by
  have hsubset : (inputs.map (·.stream.location?)).toFinset ⊆ places.insertNone := by
    intro location hmem
    obtain ⟨input, hinput, rfl⟩ := List.mem_map.mp (List.mem_toFinset.mp hmem)
    exact h.known input hinput
  calc inputs.length
      = (inputs.map (·.stream.location?)).toFinset.card := by
        rw [List.toFinset_card_of_nodup h.distinct, List.length_map]
    _ ≤ places.insertNone.card := Finset.card_le_card hsubset
    _ = places.card + 1 := Finset.card_insertNone places

/-- What is read on is still in order. -/
theorem ReadOn.inOrder {inputs inputs' : List Input}
    (h : ReadOn inputs inputs') (hs : InOrder places inputs) : InOrder places inputs' := by
  cases h with
  | nil => exact hs
  | @cons input below stream hsteady =>
    have hsame := location_of_steady hsteady
    have hdistinct := hs.distinct
    obtain ⟨htop, hbelow⟩ := List.forall_mem_cons.mp hs.known
    rw [List.map_cons] at hdistinct
    refine ⟨?_, List.forall_mem_cons.mpr ⟨?_, hbelow⟩, ?_⟩
    · rw [List.map_cons]
      dsimp only
      rwa [hsame]
    · dsimp only
      rwa [hsame]
    · rintro _ ⟨⟩
      exact hs.unsaved input rfl

/-- The first of the inputs on a scanner's stack may have a token laid aside or not. -/
theorem InOrder.below {input : Input} {below : List Input} (h : InOrder places (input :: below)) :
    (below.map (·.stream.location?)).Nodup ∧
      ∀ input ∈ below, input.stream.location? ∈ places.insertNone :=
  ⟨(List.nodup_cons.mp h.distinct).2, (List.forall_mem_cons.mp h.known).2⟩

/-- A file is included on top if it is not being read. -/
theorem InOrder.including {stream : Stream} {atEnd : Routine} (h : InOrder places s.inputs)
    (hplace : stream.location? ∈ places.insertNone)
    (hnew : ∀ input ∈ s.inputs, input.stream.location? ≠ stream.location?) :
    InOrder places (s.including stream atEnd).inputs := by
  have hnew' : stream.location? ∉ s.inputs.map (·.stream.location?) := by
    rw [List.mem_map]
    rintro ⟨input, hinput, hsame⟩
    exact hnew input hinput hsame
  unfold Scanner.including
  dsimp only
  cases hinputs : s.inputs with
  | nil => exact ⟨List.nodup_singleton _, List.forall_mem_singleton.mpr hplace, by rintro _ ⟨⟩; rfl⟩
  | cons input rest =>
    rw [hinputs] at h hnew'
    refine ⟨List.nodup_cons.mpr ⟨hnew', h.distinct⟩, List.forall_mem_cons.mpr ⟨hplace, ?_⟩,
      by rintro _ ⟨⟩; rfl⟩
    exact List.forall_mem_cons.mpr (List.forall_mem_cons.mp h.known)

/-- **Each change** of a scanner keeps its inputs in order. -/
theorem InOrder.changes (hs : InOrder places s.inputs) (hdisk : s.disk.places ⊆ places)
    (h : Changes s t) : InOrder places t.inputs ∧ t.disk = s.disk := by
  cases h with
  | busied h =>
    refine ⟨h.inputs.inOrder hs, ?_⟩
    rw [h.rest]
  | included hfile hnew =>
    have hplace : _ ∈ places.insertNone :=
      Finset.insertNone.monotone hdisk (Stream.mem_places_of_file hfile)
    exact ⟨hs.including hplace hnew, rfl⟩
  | @resumed done parent below hinputs =>
    rw [hinputs] at hs
    obtain ⟨hdistinct, hknown⟩ := hs.below
    refine ⟨⟨hdistinct, List.forall_mem_cons.mpr (List.forall_mem_cons.mp hknown), ?_⟩, rfl⟩
    rintro _ ⟨⟩
    rfl
  | switched | pushed | popped | pushedBack | delivered => exact ⟨hs, rfl⟩

/-- So does each change by an operation. -/
theorem InOrder.turns (hs : InOrder places s.inputs) (hdisk : s.disk.places ⊆ places)
    (h : Turns s t) : InOrder places t.inputs ∧ t.disk = s.disk := by
  cases h with
  | changed h => exact hs.changes hdisk h
  | closed | rewound => exact ⟨.nil, rfl⟩
  | @opened stream hinputs hsource =>
    refine ⟨⟨List.nodup_singleton _, List.forall_mem_singleton.mpr ?_, by rintro _ ⟨⟩; rfl⟩, rfl⟩
    rcases hsource with hlabel | ⟨name, hfile⟩
    · show stream.location? ∈ _
      rw [hlabel]
      exact Finset.none_mem_insertNone
    · exact Finset.insertNone.monotone hdisk (Stream.mem_places_of_file hfile)
  | finished | extended => exact ⟨hs, rfl⟩

/-- **The inputs are in order** after any operations. -/
theorem inOrder_after (hmade : make master lexicon defaultMode = .ok made)
    (history : List Operation) :
    InOrder (placesOf history) (after history made).inputs := by
  obtain ⟨-, rfl⟩ := make_eq_ok_iff.mp hmade
  -- what is on the disk is part of the invariant, since files are opened from there
  let inv (s : Scanner) : Prop := InOrder (placesOf history) s.inputs ∧
    s.disk.places ⊆ placesOf history
  have hturns (s t : Scanner) (hs : inv s) (h : Turns s t) : inv t := by
    obtain ⟨hinputs, hdisk⟩ := hs.1.turns hs.2 h
    exact ⟨hinputs, hdisk ▸ hs.2⟩
  have hstart : inv
      { master := master, lexicon := lexicon, defaultMode := defaultMode, mode := defaultMode } :=
    ⟨.nil, Finset.empty_subset _⟩
  exact (after_invariant hturns (fun settings hmem s hs => ⟨hs.1, subset_placesOf hmem⟩) hstart).1

end Scanner

-- ---------------------------------------------------------------------------
-- The stack of a desk
-- ---------------------------------------------------------------------------

namespace Desk

open Scanner (Operation Answer InOrder placesOf)

variable {d : Desk} {s : Scanner} {master : String} {lexicon : Lexicon} {defaultMode : Mode}
  {made : Scanner}

/-- What the stack of a desk is like: the current handle is that of the entry on top, no file is on
it twice, it is no deeper than there are files and one more, and no token is laid aside for the
entry on top. -/
structure Sound (places : Finset Location) (d : Desk) : Prop where
  current : d.current = d.stack.head?.map Entry.handle
  distinct : (d.stack.map fun entry => (d.streamOf entry.handle).location?).Nodup
  depth : d.stack.length ≤ places.card + 1
  unsaved : ∀ top ∈ d.stack.head?, top.saved = none

theorem Shows.sound {places : Finset Location}
    (h : Shows d s) (hs : InOrder places s.inputs) : Sound places d := by
  have hinputs : s.inputs = d.stack.map d.inputOf := by
    rw [h.view]
    rfl
  rw [hinputs] at hs
  refine ⟨h.wired.current, ?_, ?_, fun top htop => ?_⟩
  · have hdistinct := hs.distinct
    rwa [List.map_map] at hdistinct
  · have hdepth := hs.length_le
    rwa [List.length_map] at hdepth
  · refine hs.unsaved (d.inputOf top) ?_
    rw [List.head?_map, Option.mem_def.mp htop]
    rfl

/-- **The stack of a desk** is in order after any operations, those that fail among them, and
whatever was opened, included by a caller or a routine, left and closed. All that while the desk is
as the scanner is, and the next operation hands back the same, or fails the same way. -/
theorem stack_in_order (hmade : Scanner.make master lexicon defaultMode = .ok made)
    (history : List Operation) :
    Sound (placesOf history) (after history (of made)) ∧
      (after history (of made)).view = Scanner.after history made ∧
      ∀ op, ((carryOut op).run (after history (of made))).result =
          ((Scanner.carryOut op).run (Scanner.after history made)).result ∧
        ((carryOut op).run (after history (of made))).trace =
          ((Scanner.carryOut op).run (Scanner.after history made)).trace := by
  have hshut : made.inputs = [] := by
    obtain ⟨-, rfl⟩ := Scanner.make_eq_ok_iff.mp hmade
    rfl
  have hshows : Shows (after history (of made)) (Scanner.after history made) :=
    (shows_of hshut).after history
  refine ⟨hshows.sound (Scanner.inOrder_after hmade history), hshows.view.symm, fun op => ?_⟩
  have halike := mirrors_carryOut op _ _ hshows
  exact ⟨halike.result.symm, halike.trace.symm⟩

/-- A routine that makes no token. -/
private def nothing : Routine := .done none .nothing

/-- Words, and numbers: a number is pushed back, and the file `g` is included. -/
private def inclusive : Lexicon :=
  [ (none,
      [ ⟨some "ID", ⟨.repeated 1 none false (.oneOf false [.range 'a' 'z']), 0, {}⟩, none⟩,
        ⟨none, ⟨.oneOf false [.range '0' '9'], 0, {}⟩, some fun m =>
          .pushBack ⟨"NUMBER", .text m.text, none⟩ (.includeFile "g" none nothing fun _ =>
            nothing)⟩ ]) ]

/-- A scanner of such words. -/
private def reader : Scanner :=
  { master := "main", lexicon := inclusive, defaultMode := none, mode := none }

/-- A disk with three files. -/
private def files : Scanner.Settings where
  macros := reader.macros
  disk := ⟨[(Location.ofName "main", .text "a b"), (Location.ofName "f", .text "c1"),
    (Location.ofName "g", .text "d")]⟩
  callsMacros := reader.callsMacros
  maxDepth := reader.maxDepth
  label := reader.label
  console := false
  abortOnWarning := false

/-- A token of the master file is pushed back, another file is included, which includes a third one,
and then a file is asked for that is being read already. -/
private def session : List Operation :=
  [.configure files, .start false, .next 9, .pushBack ⟨"ID", .text "a", none⟩,
    .includeFile "f" none nothing, .next 9, .next 9, .includeFile "main" none nothing]

/-- Three files are open, and for two of them a token is laid aside. -/
theorem stack_in_order_session : Scanner.make "main" inclusive none = .ok reader ∧
    (after session (of reader)).stack.map (fun entry => (entry.handle, entry.saved.isSome)) =
      [(2, false), (1, true), (0, true)] ∧
    (after session (of reader)).current = some 2 ∧ (placesOf session).card = 3 ∧
    Sound (placesOf session) (after session (of reader)) ∧
    (after session (of reader)).view = Scanner.after session reader := by
  have hmade : Scanner.make "main" inclusive none = .ok reader := rfl
  obtain ⟨hsound, hview, -⟩ := stack_in_order hmade session
  exact ⟨hmade, by decide +kernel, by decide +kernel, by decide +kernel, hsound, hview⟩

end Desk

end GrammarEngine
