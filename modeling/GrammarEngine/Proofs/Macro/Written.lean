import Mathlib.Data.List.DropRight
import GrammarEngine.Proofs.Scanner.Calls
import GrammarEngine.Proofs.Scanner.Reading

/-!
# Written calls

A call can be written for any name and any arguments: each argument stands in quotes, with a
backslash in front of each quote and each backslash in it (`Call.write`). What is written in this
way is read back exactly, whatever stands behind it (`read?_write`). A part of it that lacks the
closing brace is no call (`read?_beginning`).

A written call with line feeds in its arguments is read line by line. What matters then is the
text before the line that it ends in (`Call.unfinished`), in which there is no telling where
the call will end.

Main results:

* `readArguments_quoted`, `readArguments_written` — quoted arguments are read back.
* `read?_write` — so are written calls.
* `read?_beginning` — but not their beginnings.
* `unfinished_readLine` — what is read of a call before its last line.
-/

namespace GrammarEngine

namespace Call

variable {name : List Char} {c : Char}

-- ---------------------------------------------------------------------------
-- Writing
-- ---------------------------------------------------------------------------

/-- Whether a text is a name: a letter or an underscore, with word characters and dots behind it. -/
def isPlainName : List Char → Bool
  | [] => false
  | c :: tail => isNameStart c && tail.all isNamePart

/-- Whether a text is a name as calls have it, which may begin with a question mark. -/
def isName : List Char → Bool
  | '?' :: rest => isPlainName rest
  | text => isPlainName text

/-- A character as it is written in quotes. -/
def escape (c : Char) : List Char := if c = '"' ∨ c = '\\' then ['\\', c] else [c]

/-- An argument as it is written. -/
def quoted (arg : String) : List Char := '"' :: arg.toList.flatMap escape ++ ['"']

/-- A call as it is written. -/
def write (name : String) (args : List String) : List Char :=
  '$' :: '{' :: name.toList ++ args.flatMap (fun arg => ' ' :: quoted arg) ++ ['}']

example : write "m" ["a\"b", ""] = "$\x7bm \"a\\\"b\" \"\"\x7d".toList := by decide

-- ---------------------------------------------------------------------------
-- Reading back
-- ---------------------------------------------------------------------------

/-- What is written between quotes is read back, up to the closing quote. -/
theorem readArguments_escaped (word arg rest : List Char) (args : List String) :
    readArguments (.quotes word) args (arg.flatMap escape ++ '"' :: rest) =
      readArguments (.gap false) (String.ofList (word.reverse ++ arg) :: args) rest := by
  induction arg generalizing word with
  | nil => simp [readArguments]
  | cons c arg ih =>
    have hword : (c :: word).reverse ++ arg = word.reverse ++ c :: arg := by simp
    rw [List.flatMap_cons, List.append_assoc, ← hword, ← ih]
    by_cases hquote : c = '"'
    · subst hquote
      simp [escape, readArguments]
    by_cases hbackslash : c = '\\'
    · subst hbackslash
      simp [escape, readArguments]
    simp [escape, hquote, hbackslash, readArguments]

theorem readArguments_quoted (arg : String) (rest : List Char) (args : List String) :
    readArguments (.gap false) args (' ' :: quoted arg ++ rest) =
      readArguments (.gap false) (arg :: args) rest := by
  have hblank : Text.isBlank ' ' = true := rfl
  have hquote : Text.isBlank '"' = false := rfl
  have hread := readArguments_escaped [] arg.toList rest args
  simp only [List.reverse_nil, List.nil_append, String.ofList_toList] at hread
  rw [← hread]
  simp [quoted, readArguments, hblank, hquote]

theorem readArguments_written (before args : List String) (after : List Char) :
    readArguments (.gap false) before (args.flatMap (fun arg => ' ' :: quoted arg) ++ '}' ::
      after) = some (before.reverse ++ args, after) := by
  induction args generalizing before with
  | nil => simp [readArguments]
  | cons arg args ih =>
    rw [List.flatMap_cons, List.append_assoc, readArguments_quoted, ih]
    simp

theorem isBlank_of_isNameStart (h : isNameStart c = true) : Text.isBlank c = false := by
  have hcode : 65 ≤ c.toNat ∧ c.toNat ≤ 122 := by
    unfold isNameStart Char.isAlpha Char.isUpper Char.isLower at h
    simp only [Bool.or_eq_true, Bool.and_eq_true, decide_eq_true_eq, beq_iff_eq, ge_iff_le,
      UInt32.le_iff_toNat_le] at h
    have hA : 'A'.val.toNat = 65 := rfl
    have hZ : 'Z'.val.toNat = 90 := rfl
    have ha : 'a'.val.toNat = 97 := rfl
    have hz : 'z'.val.toNat = 122 := rfl
    rcases h with h | rfl
    · simp only [Char.toNat]
      omega
    · decide
  simp only [Text.isBlank, Text.Intervals.contains, Text.blankIntervals, List.any_cons,
    List.any_nil, Bool.or_false,
    Bool.or_eq_false_iff, Bool.and_eq_false_iff, decide_eq_false_iff_not]
  omega

/-- A name is read up to a character that it cannot go on with. -/
theorem readName_append (h : isName name = true) {d : Char} (hd : isNamePart d = false)
    (rest : List Char) : readName (name ++ d :: rest) = some (name, d :: rest) := by
  have hall : ∀ {tail : List Char}, tail.all isNamePart = true →
      (tail ++ d :: rest).takeWhile isNamePart = tail ∧
      (tail ++ d :: rest).dropWhile isNamePart = d :: rest := by
    intro tail htail
    rw [List.all_eq_true] at htail
    rw [List.takeWhile_append_of_pos htail, List.dropWhile_append_of_pos htail]
    simp [hd]
  unfold isName at h
  split at h
  · next inside =>
    cases inside with
    | nil => cases h
    | cons c tail =>
      obtain ⟨hstart, htail⟩ := Bool.and_eq_true_iff.mp h
      obtain ⟨htake, hdrop⟩ := hall htail
      simp [readName_mark, hstart, htake, hdrop]
  · next hmark =>
    cases name with
    | nil => cases h
    | cons c tail =>
      obtain ⟨hstart, htail⟩ := Bool.and_eq_true_iff.mp h
      obtain ⟨htake, hdrop⟩ := hall htail
      have hc : c ≠ '?' := by
        rintro rfl
        exact hmark tail rfl
      simp [readName_plain hc, hstart, htake, hdrop]

/-- A name does not begin with a blank. -/
theorem dropWhile_isBlank_of_isName (h : isName name = true) (rest : List Char) :
    (name ++ rest).dropWhile Text.isBlank = name ++ rest := by
  unfold isName at h
  split at h
  · have hmark : Text.isBlank '?' = false := rfl
    simp [hmark]
  · cases name with
    | nil => cases h
    | cons c tail =>
      have hstart := isBlank_of_isNameStart (Bool.and_eq_true_iff.mp h).1
      simp [hstart]

/-- **A written call is read back**, whatever stands behind it. -/
theorem read?_write {name : String}
    (h : isName name.toList = true) (args : List String) (after : List Char) :
    read? (write name args ++ after) = some ⟨name, args, (write name args).length⟩ := by
  let behind := args.flatMap (fun arg => ' ' :: quoted arg) ++ '}' :: after
  have hwrite : write name args ++ after = '$' :: '{' :: (name.toList ++ behind) := by
    simp [write, behind, List.append_assoc]
  have hname : readName ((name.toList ++ behind).dropWhile Text.isBlank) =
      some (name.toList, behind) := by
    rw [dropWhile_isBlank_of_isName h]
    -- behind the name there is a blank or the closing brace
    cases args with
    | nil => exact readName_append h rfl after
    | cons arg args => exact readName_append h rfl _
  refine read?_eq_some_iff.mpr
    ⟨_, name.toList, behind, args, after, hwrite, hname, readArguments_written [] args after, ?_⟩
  rw [String.ofList_toList, List.length_append, Nat.add_sub_cancel]

/-- A beginning of a written call is no call. -/
theorem read?_beginning {name : String} (h : isName name.toList = true) {args : List String}
    {begun : List Char} (hbegun : begun <+: write name args)
    (hless : begun.length < (write name args).length) : read? begun = none := by
  obtain ⟨more, hmore⟩ := hbegun
  cases hread : read? begun with
  | none => rfl
  | some call =>
    obtain ⟨used, rest, rfl, hlength, hsame⟩ := read?_split hread
    -- the whole call would be the part that has been read
    have hwhole := read?_write h args []
    rw [List.append_nil, ← hmore, List.append_assoc, hsame] at hwhole
    have hcall := congrArg Call.length (Option.some.inj hwhole)
    rw [← hmore] at hless
    simp only [List.length_append] at hless hcall
    omega

-- ---------------------------------------------------------------------------
-- Calls over several lines
-- ---------------------------------------------------------------------------

/-- What has been read of a call before the line that it ends in, from the text on that is at hand
at the beginning. That is nothing if the call ends in that text. -/
def unfinished (written atHand : List Char) : List Char :=
  if written.length ≤ atHand.length then []
  else atHand ++ (written.drop atHand.length).rdropWhile (· != '\n')

theorem rdropWhile_of_not_mem {text : List Char} (h : '\n' ∉ text) :
    text.rdropWhile (· != '\n') = [] := by
  exact List.rdropWhile_eq_nil_iff.mpr (bne_of_not_mem h)

/-- Of what stands behind a line feed only the last line is dropped. -/
theorem rdropWhile_append_lineFeed (line text : List Char) :
    (line ++ '\n' :: text).rdropWhile (· != '\n') =
      line ++ '\n' :: text.rdropWhile (· != '\n') := by
  induction text using List.reverseRecOn with
  | nil => simp
  | append_singleton text c ih =>
    rw [← List.cons_append, ← List.append_assoc, List.rdropWhile_concat, List.rdropWhile_concat]
    by_cases hc : c = '\n'
    · simp [hc]
    · simp [hc, ih]

/-- When a line more is read of a call that goes on in it, what is at hand then counts as read
before the last line, and so does what is read before that from then on. -/
theorem mem_unfinished_iff {written atHand : List Char} (hlast : written.getLast? ≠ some '\n')
    (hless : atHand.length < written.length) (after : List Char) (d : Char) :
    d ∈ unfinished written atHand ↔ d ∈ atHand ∨ d ∈ unfinished written (atHand ++
        (readLine (written.drop atHand.length ++ after)).1) := by
  have hhere : unfinished written atHand =
      atHand ++ (written.drop atHand.length).rdropWhile (· != '\n') :=
    if_neg (Nat.not_le.mpr hless)
  have hdrop : (written.drop atHand.length).length = written.length - atHand.length :=
    List.length_drop
  by_cases hfeed : '\n' ∈ written.drop atHand.length
  · obtain ⟨line, text, hsplit, hfirst⟩ := List.eq_append_cons_of_mem hfeed
    have htext : text ≠ [] := by
      rintro rfl
      have hend : written = written.take atHand.length ++ line ++ ['\n'] := by
        rw [List.append_assoc, ← hsplit, List.take_append_drop]
      rw [hend, List.getLast?_append] at hlast
      simp at hlast
    have hlength := congrArg List.length hsplit
    rw [hdrop] at hlength
    have hpos := List.length_pos_iff.mpr htext
    simp only [List.length_append, List.length_cons] at hlength
    have hline : (readLine (written.drop atHand.length ++ after)).1 = line ++ ['\n'] := by
      rw [hsplit, List.append_assoc, List.cons_append, readLine_append_lineFeed hfirst]
    have hbehind : written.drop (atHand ++ (line ++ ['\n'])).length = text := by
      rw [List.length_append, ← List.drop_drop, hsplit]
      simp
    have hthere : unfinished written (atHand ++ (line ++ ['\n'])) = unfinished written atHand := by
      have hnot : ¬ written.length ≤ (atHand ++ (line ++ ['\n'])).length := by
        simp only [List.length_append, List.length_singleton]
        omega
      rw [hhere, hsplit, rdropWhile_append_lineFeed, unfinished, if_neg hnot, hbehind]
      simp
    rw [hline, hthere, hhere]
    simp only [List.mem_append]
    tauto
  · -- the call ends in the line that is read
    have hread := length_le_readLine hfeed after
    have hthere :
        unfinished written (atHand ++ (readLine (written.drop atHand.length ++ after)).1) = [] := by
      refine if_pos ?_
      rw [List.length_append]
      omega
    rw [hthere, hhere, rdropWhile_of_not_mem hfeed]
    simp

theorem getLast?_write (name : String) (args : List String) :
    (write name args).getLast? = some '\x7d' := by
  unfold write
  rw [List.getLast?_append]
  rfl

/-- Where the lines of a written call have not been read yet, it is what stands before
its last line. -/
theorem unfinished_readLine (name : String) (args : List String) (after : List Char) :
    unfinished (write name args) (readLine (write name args ++ after)).1 =
      (write name args).rdropWhile (· != '\n') := by
  by_cases hfeed : '\n' ∈ write name args
  · obtain ⟨line, text, hsplit, hfirst⟩ := List.eq_append_cons_of_mem hfeed
    have htext : text ≠ [] := by
      rintro rfl
      have hlast := getLast?_write name args
      rw [hsplit, List.getLast?_append] at hlast
      simp at hlast
    have hpos := List.length_pos_iff.mpr htext
    rw [hsplit, List.append_assoc, List.cons_append, readLine_append_lineFeed hfirst,
      rdropWhile_append_lineFeed]
    have hnot : ¬ (line ++ '\n' :: text).length ≤ (line ++ ['\n']).length := by
      simp only [List.length_append, List.length_cons, List.length_nil]
      omega
    rw [unfinished, if_neg hnot]
    simp
  · rw [unfinished, if_pos (length_le_readLine hfeed after), rdropWhile_of_not_mem hfeed]

end Call

end GrammarEngine
