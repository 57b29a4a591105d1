import GrammarEngine.Scanner.Basic

/-!
# The files of a directory

A file of a directory has a name without a slash, and is reached under the name of the directory
with that name behind it. From there the directory is the same one again, and different names lead
to different places.

Main results:

* `directory_inside` — a file in a directory names the directory.
* `ofName_inside_inj` — different files are in different places.
* `fullName_of_plain` — the files of a directory see each other under their names.
-/

namespace GrammarEngine

namespace Location

/-- A name of a file: one component that leads down. -/
structure Plain (name : String) : Prop where
  ne_empty : name ≠ ""
  ne_dot : name ≠ "."
  ne_dots : name ≠ ".."
  no_slash : '/' ∉ name.toList

/-- The name of a file of a directory. The nameless directory is the working directory. -/
def inside (dir name : String) : String := if dir.isEmpty then name else join dir name

-- ---------------------------------------------------------------------------
-- The directory of a file
-- ---------------------------------------------------------------------------

/-- The text in front of the last slash, and the slash. -/
theorem dropWhile_no_slash {head name : List Char} (h : '/' ∉ name) :
    ((head ++ '/' :: name).reverse.dropWhile (· != '/')).reverse = head ++ ['/'] := by
  have hname : ∀ c ∈ name.reverse, (c != '/') = true := by
    intro c hc
    rw [bne_iff_ne]
    rintro rfl
    exact h (List.mem_reverse.mp hc)
  rw [List.reverse_append, List.reverse_cons, List.append_assoc, List.dropWhile_append_of_pos hname]
  simp

/-- The directory of a path: nothing, or all slashes, or a text that does not end in one. -/
theorem directory_cases (path : String) :
    (∀ c ∈ (directory path).toList, c = '/') ∨ (directory path).toList.getLast? ≠ some '/' := by
  unfold directory
  generalize hhead : (path.toList.reverse.dropWhile (· != '/')).reverse = head
  dsimp only
  split
  · next hall =>
    left
    intro c hc
    rw [String.toList_ofList] at hc
    simpa using List.all_eq_true.mp hall c hc
  · right
    rw [String.toList_ofList, List.getLast?_reverse]
    intro hfirst
    have := List.head?_dropWhile_not (· == '/') head.reverse
    rw [hfirst] at this
    simp at this

/-- What a file of a directory is called: the name of the directory, a slash, and the
name of the file. -/
theorem inside_toList {dir : String} (hdir : dir ≠ "") :
    ∃ head, (dir.toList = head ++ ['/'] ∨ (dir.toList = head ∧ dir.toList.getLast? ≠ some '/')) ∧
      ∀ name, (inside dir name).toList = head ++ '/' :: name.toList := by
  have hempty : dir.isEmpty = false := by
    rw [Bool.eq_false_iff, ne_eq, String.isEmpty_iff]
    exact hdir
  by_cases hlast : dir.toList.getLast? = some '/'
  · obtain ⟨head, hhead⟩ := List.getLast?_eq_some_iff.mp hlast
    refine ⟨head, .inl hhead, fun name => ?_⟩
    unfold inside join
    rw [hempty, if_neg Bool.false_ne_true, if_pos hlast, String.toList_append, hhead,
      List.append_assoc]
    rfl
  · refine ⟨dir.toList, .inr ⟨rfl, hlast⟩, fun name => ?_⟩
    unfold inside join
    rw [hempty, if_neg Bool.false_ne_true, if_neg hlast, String.toList_append, String.toList_append,
      List.append_assoc]
    rfl

theorem directory_of_no_slash {name : String} (h : '/' ∉ name.toList) : directory name = "" := by
  have hall : ∀ c ∈ name.toList.reverse, (c != '/') = true := by
    intro c hc
    rw [bne_iff_ne]
    rintro rfl
    exact h (List.mem_reverse.mp hc)
  unfold directory
  rw [← List.append_nil name.toList.reverse, List.dropWhile_append_of_pos hall]
  rfl

/-- A file of a directory names the directory. -/
theorem directory_inside {path name : String} (h : '/' ∉ name.toList) :
    directory (inside (directory path) name) = directory path := by
  by_cases hdir : directory path = ""
  · rw [hdir]
    exact directory_of_no_slash h
  · obtain ⟨head, hcases, htext⟩ := inside_toList hdir
    have hslash := directory_cases path
    replace htext := htext name
    generalize directory path = dir at hdir hslash hcases htext
    unfold directory
    rw [htext, dropWhile_no_slash h]
    rcases hcases with hhead | ⟨hhead, hlast⟩
    · -- the directory ends in a slash, so it is the root
      have hall : ∀ c ∈ head ++ ['/'], c = '/' := by
        rcases hslash with hslash | hslash
        · rw [← hhead]
          exact hslash
        · rw [hhead] at hslash
          simp at hslash
      rw [if_pos (by simpa using fun c hc => hall c (List.mem_append_left _ hc)), ← hhead,
        String.ofList_toList]
    · have hall : ¬ (head ++ ['/']).all (· == '/') = true := by
        intro hall
        rw [← hhead, List.all_append, Bool.and_eq_true, List.all_eq_true] at hall
        cases hlist : dir.toList.getLast? with
        | none =>
          rw [List.getLast?_eq_none_iff] at hlist
          exact hdir (String.toList_eq_nil_iff.mp hlist)
        | some c =>
          have hc : c = '/' := by simpa using hall.1 c (List.mem_of_getLast? hlist)
          rw [hlist, hc] at hlast
          exact hlast rfl
      have hstrip : ((head ++ ['/']).reverse.dropWhile (· == '/')).reverse = head := by
        rw [List.reverse_concat, List.dropWhile_cons_of_pos (by rfl)]
        cases hreverse : head.reverse with
        | nil => rw [List.reverse_eq_nil_iff.mp hreverse]; rfl
        | cons c rest =>
          have hc : ¬ (c == '/') = true := by
            intro heq
            rw [hhead, List.getLast?_eq_head?_reverse, hreverse, List.head?_cons, beq_iff_eq.mp heq]
              at hlast
            exact hlast rfl
          rw [List.dropWhile_cons_of_neg (p := (· == '/')) hc, ← hreverse, List.reverse_reverse]
      rw [if_neg hall, hstrip, ← hhead, String.ofList_toList]

-- ---------------------------------------------------------------------------
-- The place of a file
-- ---------------------------------------------------------------------------

theorem isAbsolute_of_no_slash {name : String} (h : '/' ∉ name.toList) :
    isAbsolute name = false := by
  unfold isAbsolute
  cases htext : name.toList with
  | nil => rfl
  | cons c rest =>
    have hc : c ≠ '/' := fun heq => h (by rw [htext, heq]; exact List.mem_cons_self ..)
    simpa using hc

theorem step_of_plain {name : String} (h : Plain name) (l : Location) :
    l.step name = { l with names := l.names ++ [name] } := by
  unfold step
  rw [if_neg (not_or.mpr ⟨h.ne_empty, h.ne_dot⟩), if_neg h.ne_dots]

/-- A file of a directory is one step down from a place that depends on the directory only. -/
theorem ofName_inside (dir : String) :
    ∃ l : Location, ∀ name, Plain name → ofName (inside dir name) = l.step name := by
  by_cases hdir : dir = ""
  · refine ⟨here, fun name hname => ?_⟩
    have hcomponents : components name = [name] := by
      unfold components
      rw [List.splitOn_eq_singleton hname.no_slash, List.map_singleton, String.ofList_toList]
    rw [hdir]
    show (components name).foldl step (start name) = here.step name
    rw [hcomponents, start, isAbsolute_of_no_slash hname.no_slash]
    rfl
  · obtain ⟨head, -, hhead⟩ := inside_toList hdir
    refine ⟨((head.splitOn '/').map String.ofList).foldl step
      (start (String.ofList (head ++ ['/']))), fun name hname => ?_⟩
    have hstart : start (inside dir name) = start (String.ofList (head ++ ['/'])) := by
      unfold start isAbsolute
      rw [hhead, String.toList_ofList]
      cases head <;> rfl
    have hcomponents : components (inside dir name) =
        (head.splitOn '/').map String.ofList ++ [name] := by
      unfold components
      rw [hhead, List.splitOn_append_cons_self, List.map_append,
        List.splitOn_eq_singleton hname.no_slash, List.map_singleton, String.ofList_toList]
    unfold ofName
    rw [hstart, hcomponents, List.foldl_append]
    rfl

theorem ofName_inside_inj {dir m n : String} (hm : Plain m) (hn : Plain n)
    (h : ofName (inside dir m) = ofName (inside dir n)) : m = n := by
  obtain ⟨l, hl⟩ := ofName_inside dir
  rw [hl m hm, hl n hn, step_of_plain hm, step_of_plain hn, Location.mk.injEq] at h
  exact List.singleton_inj.mp (List.append_cancel_left h.2.2)

end Location

namespace Scanner

/-- The files of a directory see each other under their names. -/
theorem fullName_of_plain {s : Scanner} {stream : Stream} {name : String} (h : Location.Plain name)
    (hs : s.current? = some stream) : s.fullName name = Location.inside stream.directory name := by
  unfold fullName Location.inside
  rw [hs, Location.isAbsolute_of_no_slash h.no_slash]
  rfl

end Scanner

end GrammarEngine
