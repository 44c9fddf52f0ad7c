import WordMachine.Files.Tree

/-!
# Files that are read and written

A file that has been written is read back with its new contents, and every other file is as it
was. Writing can only make a place a file that was no directory, and the directories on the way
to it were there before, so that no other path is led elsewhere.
-/

namespace WordMachine.FileTree

variable {tree after : FileTree} {path other : Path} {bytes : List UInt8} {place : Place}

/-- The tree with other contents of the file at a path. -/
def put (tree : FileTree) (path : Path) (bytes : List UInt8) : FileTree :=
  { tree with files := (path, bytes) :: tree.files.filter (·.1 != path) }

/-- A walk goes on with the names that are left. -/
theorem enter_append (here : Path) (name : String) (names : List String) :
    (here.enter name).parts ++ names = here.parts ++ name :: names := by
  rw [Path.enter, List.append_assoc, List.singleton_append]

/-- A file is written where a path leads to no directory. -/
theorem write_eq_ok_iff :
    tree.write path bytes = .ok after ↔
      (∃ place, tree.locate path = .ok place ∧ place ≠ .directory) ∧
        after = tree.put path bytes := by
  unfold write
  cases tree.locate path with
  | error cause => simp
  | ok place =>
    cases place with
    | directory => simp
    | file contents => simp [put, eq_comm]
    | vacant => simp [put, eq_comm]

/-- A directory stands only where the path has one. -/
theorem isDirectory_of_place (h : tree.place path = .directory) : tree.isDirectory path = true := by
  unfold place at h
  cases hfile : tree.files.lookup path with
  | some contents =>
    rw [hfile] at h
    cases h
  | none =>
    simp only [hfile] at h
    split at h
    · assumption
    · cases h

/-- What a walk finds other than a directory stands at the end of the way. -/
theorem place_of_walk {names : List String} {here : Path} (hpath : here.parts ++ names = path.parts)
    (hwalk : tree.walk here names = .ok place) (hplace : place ≠ .directory) :
    tree.place path = place := by
  induction names generalizing here with
  | nil => exact absurd (Except.ok.inj hwalk).symm hplace
  | cons name names ih =>
    rw [walk] at hwalk
    split at hwalk
    · cases hwalk
    · have hnext := (enter_append here name names).trans hpath
      have hlast (h : names.isEmpty = true) : here.enter name = path := by
        rw [List.isEmpty_iff] at h
        rw [h, List.append_nil] at hnext
        exact congrArg Path.mk hnext
      cases hstanding : tree.place (here.enter name) with
      | directory =>
        rw [hstanding] at hwalk
        exact ih hnext hwalk
      | file contents =>
        simp only [hstanding] at hwalk
        split at hwalk
        · rename_i hempty
          rw [← hlast hempty, hstanding]
          exact Except.ok.inj hwalk
        · cases hwalk
      | vacant =>
        simp only [hstanding] at hwalk
        split at hwalk
        · rename_i hempty
          rw [← hlast hempty, hstanding]
          exact Except.ok.inj hwalk
        · cases hwalk

/-- On a walk with more names to come, the path so far leads to a directory. -/
theorem isDirectory_of_walk {here : Path} {names rest : List String} (hrest : rest ≠ [])
    (hhere : tree.isDirectory here = true) (h : tree.walk here (names ++ rest) = .ok place) :
    tree.isDirectory { parts := here.parts ++ names } = true := by
  induction names generalizing here with
  | nil =>
    rw [List.append_nil]
    exact hhere
  | cons name names ih =>
    have hmore : (names ++ rest).isEmpty = false := by
      cases names with
      | nil => exact List.isEmpty_eq_false_iff.mpr hrest
      | cons next names => rfl
    rw [List.cons_append, walk] at h
    split at h
    · cases h
    · cases hplace : tree.place (here.enter name) with
      | directory =>
        rw [hplace] at h
        rw [← enter_append]
        exact ih (isDirectory_of_place hplace) h
      | file contents =>
        simp only [hplace, hmore, Bool.false_eq_true, if_false] at h
        cases h
      | vacant =>
        simp only [hplace, hmore, Bool.false_eq_true, if_false] at h
        cases h

/-- Above a path that leads somewhere there are directories only. -/
theorem isDirectory_of_isBelow (h : tree.locate path = .ok place)
    (hbelow : path.isBelow other = true) : tree.isDirectory other = true := by
  unfold locate at h
  split at h
  · cases h
  · simp only [Path.isBelow, Bool.and_eq_true, List.isPrefixOf_iff_prefix, bne_iff_ne] at hbelow
    obtain ⟨⟨rest, hparts⟩, hne⟩ := hbelow
    have hrest : rest ≠ [] := by
      rintro rfl
      rw [List.append_nil] at hparts
      exact hne (congrArg Path.mk hparts.symm)
    rw [← hparts] at h
    exact isDirectory_of_walk hrest rfl h

/-- A new file makes no directory, since those on the way to it are there. -/
theorem isDirectory_put (h : tree.locate path = .ok place) (bytes : List UInt8) (other : Path) :
    (tree.put path bytes).isDirectory other = tree.isDirectory other := by
  cases hbelow : path.isBelow other with
  | true =>
    rw [isDirectory_of_isBelow h hbelow]
    simp [isDirectory, put, hbelow]
  | false =>
    have hfiles : (tree.put path bytes).files.any (·.1.isBelow other) =
        tree.files.any (·.1.isBelow other) := by
      rw [put, List.any_cons, hbelow, Bool.false_or, List.any_filter]
      congr 1
      funext file
      by_cases hfile : file.1 = path
      · rw [hfile, hbelow, Bool.and_false]
      · simp [hfile]
    simp only [isDirectory, hfiles]
    rfl

/-- What stands at other paths than that of a new file is what stood there. -/
theorem place_put_of_ne (h : tree.locate path = .ok place) (bytes : List UInt8)
    (hne : other ≠ path) : (tree.put path bytes).place other = tree.place other := by
  have hlookup : (tree.put path bytes).files.lookup other = tree.files.lookup other := by
    rw [put, List.lookup_cons, beq_false_of_ne hne]
    induction tree.files with
    | nil => rfl
    | cons file files ih =>
      by_cases hfile : file.1 = path
      · rw [List.filter_cons_of_neg (by simp [hfile]), ih, List.lookup_cons, hfile,
          beq_false_of_ne hne]
      · rw [List.filter_cons_of_pos (by simp [hfile]), List.lookup_cons, List.lookup_cons]
        simp only at ih
        rw [ih]
  simp only [FileTree.place, hlookup, isDirectory_put h]

/-- A new file stands at its path. -/
theorem place_put_self (tree : FileTree) (path : Path) (bytes : List UInt8) :
    (tree.put path bytes).place path = .file bytes := by
  simp [FileTree.place, put]

/-- The way to a new file is the way that led to its place. -/
theorem walk_put_self {names : List String} {here : Path} {found : Place}
    (h : tree.locate path = .ok place) (hpath : here.parts ++ names = path.parts)
    (hwalk : tree.walk here names = .ok found) (hfound : found ≠ .directory) :
    (tree.put path bytes).walk here names = .ok (.file bytes) := by
  induction names generalizing here with
  | nil => exact absurd (Except.ok.inj hwalk).symm hfound
  | cons name names ih =>
    rw [walk] at hwalk ⊢
    split at hwalk
    · cases hwalk
    · rename_i hshort
      rw [if_neg hshort]
      cases names with
      | nil =>
        obtain rfl : here.enter name = path := congrArg Path.mk hpath
        rw [place_put_self]
        rfl
      | cons next names =>
        have hne : here.enter name ≠ path := by
          rintro rfl
          simp [Path.enter] at hpath
        rw [place_put_of_ne h bytes hne]
        cases hplace : tree.place (here.enter name) with
        | directory =>
          rw [hplace] at hwalk
          exact ih ((enter_append _ _ _).trans hpath) hwalk
        | file contents =>
          rw [hplace] at hwalk
          cases hwalk
        | vacant =>
          rw [hplace] at hwalk
          cases hwalk

/-- A walk to another path finds a file exactly if it found it before. One that comes by the new
file cannot go on there, and could not before. -/
theorem walk_put_of_ne {names : List String} {here : Path} {contents : List UInt8}
    (h : tree.locate path = .ok place) (hfile : tree.place path ≠ .directory)
    (hother : here.parts ++ names = other.parts) (hne : other ≠ path) :
    (tree.put path bytes).walk here names = .ok (.file contents) ↔
      tree.walk here names = .ok (.file contents) := by
  induction names generalizing here with
  | nil => simp [walk]
  | cons name names ih =>
    rw [walk, walk]
    split
    · exact Iff.rfl
    · by_cases hpath : here.enter name = path
      · subst hpath
        have hmore : names.isEmpty = false := by
          cases names with
          | nil => exact absurd (congrArg Path.mk hother).symm hne
          | cons next names => rfl
        rw [place_put_self]
        cases hplace : tree.place (here.enter name) with
        | directory => exact absurd hplace hfile
        | file old => simp [hmore]
        | vacant => simp [hmore]
      · rw [place_put_of_ne h bytes hpath]
        cases tree.place (here.enter name) with
        | directory => exact ih ((enter_append _ _ _).trans hother)
        | file old => exact Iff.rfl
        | vacant => exact Iff.rfl

/-- A file is read where the way of a path that is not too long ends at it. -/
theorem read_eq_ok_iff {contents : List UInt8} :
    tree.read path = .ok contents ↔
      path.text.utf8ByteSize ≤ longestPath ∧ tree.walk {} path.parts = .ok (.file contents) := by
  unfold read locate
  by_cases hlong : longestPath < path.text.utf8ByteSize
  · simp [hlong, Nat.not_le.mpr hlong]
  · rw [if_neg hlong]
    simp only [Nat.le_of_not_lt hlong, true_and]
    cases tree.walk {} path.parts with
    | error cause => simp
    | ok found =>
      cases found with
      | file old => simp
      | directory => simp
      | vacant => simp

/-- One tree comes from another by writing a file: it has the new contents, and every other file is
as it was. -/
structure Stores (before : FileTree) (path : Path) (bytes : List UInt8) (after : FileTree) :
    Prop where
  /-- The file is read back. -/
  read_self : after.read path = .ok bytes
  /-- Other files are read as before. -/
  read_other : ∀ other ≠ path, ∀ contents,
    after.read other = .ok contents ↔ before.read other = .ok contents

/-- One tree comes from another by writing a file, or is the same tree if nothing is written. -/
def WrittenTo (before : FileTree) (path : Path) : Option (List UInt8) → FileTree → Prop
  | none, after => after = before
  | some bytes, after => before.Stores path bytes after

/-- A path at which any file can be written. -/
def Writable (tree : FileTree) (path : Path) : Prop :=
  ∀ bytes, ∃ after, tree.write path bytes = .ok after

/-- Writing a file changes this file and no other one. -/
theorem stores_of_write (h : tree.write path bytes = .ok after) : tree.Stores path bytes after := by
  obtain ⟨⟨place, hlocate, hplace⟩, rfl⟩ := write_eq_ok_iff.mp h
  have hwalk : path.text.utf8ByteSize ≤ longestPath ∧ tree.walk {} path.parts = .ok place := by
    unfold locate at hlocate
    split at hlocate
    · cases hlocate
    · exact ⟨Nat.le_of_not_lt ‹_›, hlocate⟩
  have hroot (path : Path) : ({} : Path).parts ++ path.parts = path.parts := List.nil_append _
  have hstanding : tree.place path ≠ .directory := by
    rw [place_of_walk (hroot path) hwalk.2 hplace]
    exact hplace
  constructor
  · exact read_eq_ok_iff.mpr ⟨hwalk.1, walk_put_self hlocate (hroot path) hwalk.2 hplace⟩
  · intro other hne contents
    rw [read_eq_ok_iff, read_eq_ok_iff, walk_put_of_ne hlocate hstanding (hroot other) hne]

end WordMachine.FileTree
