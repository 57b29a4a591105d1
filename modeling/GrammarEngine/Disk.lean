import GrammarEngine.Fault

/-!
# Files

Files are looked up by name, relative to a working directory or from the root. A name is followed
component by component; `.` stays where it is and `..` goes up. What lies above the working
directory, or below the root, is not known to hold anything else.

What is not modelled is where the working directory lies, and links. So a relative and an absolute
name never lead to the same place here, and two names of one kind do exactly if their components do.
That is an assumption about the files: no component of a name is a link, and no absolute name leads
to what relative names lead to.

A file holds text, or raw bytes that have to be valid UTF-8. In the text of a file every line
end is a line feed.

Main result:

* `uniformLineEnds_not_mem` — no carriage return is left.
-/

namespace GrammarEngine

/-- The place that a name leads to, without `.` and `..`. The names lead down from the root, or from
the directory `up` levels above the working directory. -/
structure Location where
  fromRoot : Bool
  up : Nat
  names : List String
deriving DecidableEq, Repr, Inhabited

namespace Location

/-- The working directory. -/
def here : Location := ⟨false, 0, []⟩

/-- The place one component further on. -/
def step (l : Location) (component : String) : Location :=
  if component = "" ∨ component = "." then l
  else if component = ".." then
    if l.names ≠ [] then { l with names := l.names.dropLast }
    else if l.fromRoot then l else { l with up := l.up + 1 }
  else { l with names := l.names ++ [component] }

/-- Whether a name starts at the root. -/
def isAbsolute (name : String) : Bool := name.toList.head? == some '/'

/-- The place where a name starts. -/
def start (name : String) : Location := if isAbsolute name then ⟨true, 0, []⟩ else here

/-- The components of a name. -/
def components (name : String) : List String :=
  (name.toList.splitOn '/').map String.ofList

/-- The place that a name leads to, whether or not there is anything. A relative and an absolute
name are never the same place, and no component is taken for a link. -/
def ofName (name : String) : Location := (components name).foldl step (start name)

/-- The directory part of a name: what stands in front of the last slash. -/
def directory (name : String) : String :=
  let head := (name.toList.reverse.dropWhile (· != '/')).reverse
  -- The root keeps its slash.
  if head.all (· == '/') then String.ofList head
  else String.ofList ((head.reverse.dropWhile (· == '/')).reverse)

/-- The name of a file as seen from a directory. -/
def join (directory name : String) : String :=
  if directory.toList.getLast? = some '/' then directory ++ name else directory ++ "/" ++ name

end Location

/-- What a file holds. -/
inductive Content where
  | text (s : String)
  | raw (bytes : ByteArray)

/-- The files there are, with their places. -/
structure Disk where
  files : List (Location × Content) := []
deriving Inhabited

/-- Turns every line end into a line feed. -/
def uniformLineEnds : List Char → List Char
  | '\r' :: '\n' :: rest => '\n' :: uniformLineEnds rest
  | '\r' :: rest => '\n' :: uniformLineEnds rest
  | c :: rest => c :: uniformLineEnds rest
  | [] => []

theorem uniformLineEnds_not_mem (text : List Char) : '\r' ∉ uniformLineEnds text := by
  fun_induction uniformLineEnds text with
  | case1 rest ih => simp [ih]
  | case2 rest _ ih => simp [ih]
  | case3 c rest _ hc ih =>
    have h : '\r' ≠ c := fun h => hc h.symm
    simp [h, ih]
  | case4 => simp

namespace Disk

/-- What stands at a place: a file, a directory, or nothing. -/
inductive Entry where
  | file (content : Content)
  | directory
  | nothing

/-- What stands at a place. -/
def entry (disk : Disk) (l : Location) : Entry :=
  match disk.files.lookup l with
  | some content => .file content
  | none =>
    if l.names = [] then .directory
    else if disk.files.any fun (m, _) =>
        m.fromRoot == l.fromRoot && m.up == l.up && l.names.isPrefixOf m.names then .directory
    else .nothing

/-- Follows the components of a name from a place on. -/
def follow (disk : Disk) (l : Location) : List String → Except Fault Content
  | [] =>
    match disk.entry l with
    | .file content => .ok content
    | .directory => .error .isDirectory
    | .nothing => .error .fileMissing
  | component :: rest =>
    match disk.entry l with
    -- Only a directory can be followed further, and that is what counts first.
    | .file _ => .error .notDirectory
    | .directory => disk.follow (l.step component) rest
    | .nothing => .error .fileMissing

/-- The text of the file of a name. -/
def read (disk : Disk) (name : String) : Except Fault (List Char) :=
  if name = "" then .error .fileMissing
  else if name.toList.contains '\x00' then .error .badName
  else do
    match ← disk.follow (Location.start name) (Location.components name) with
    | .text s => .ok (uniformLineEnds s.toList)
    | .raw bytes =>
      match String.fromUTF8? bytes with
      | some s => .ok (uniformLineEnds s.toList)
      | none => .error .undecodable

end Disk

end GrammarEngine
