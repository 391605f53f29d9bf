import PagedTable.Error

/-!
# Files and the paths that lead to them

A volume holds files. A path starts in one directory, or at the root if it begins with a slash, and
leads upwards as far as it likes; below the directories that it can pass this way there are files
and no further directories.

A path is followed step by step, and the first step that leads nowhere decides what is wrong with
it. What ends at a directory, or with a slash, names no file.

* `Volume.read?_write`, `Volume.read?_erase`: the files after one is written or deleted.
* `Volume.openFile_again`: a path that can be opened leads to the same place ever after.
-/

namespace PagedTable

/-- A directory that a path can pass. -/
inductive Directory where
  /-- The directory so many levels above the one where paths start. -/
  | above (levels : Nat)
  | root
deriving DecidableEq, Repr

/-- The directory where paths start. -/
def Directory.start : Directory := .above 0

/-- The directory above. The root is above itself. -/
def Directory.parent : Directory → Directory
  | .above levels => .above (levels + 1)
  | .root => .root

/-- Where a file is. -/
structure Location where
  directory : Directory
  name : String
deriving DecidableEq, Repr

/-- Bytes of the longest name in a directory. -/
abbrev maxNameWidth : Nat := 255

/-- Bytes of the longest path. -/
abbrev maxPathWidth : Nat := 4095

/-- The files that paths can lead to. -/
structure Volume where
  files : List (Location × Array UInt8) := []

namespace Volume

/-- The content of a file. -/
def read? (v : Volume) (l : Location) : Option (Array UInt8) := v.files.lookup l

/-- The volume without a file. -/
def erase (v : Volume) (l : Location) : Volume :=
  ⟨v.files.filter fun (other, _) => other ≠ l⟩

/-- The volume with a file of this content. -/
def write (v : Volume) (l : Location) (bytes : Array UInt8) : Volume :=
  ⟨(l, bytes) :: (v.erase l).files⟩

/-- The place that the steps of a path lead to from a directory. A slash after the last step makes
it name a directory. -/
def follow (v : Volume) (slash : Bool) (dir : Directory) : List String → Except IoError Location
  | [] => .error .isDirectory
  | [name] =>
    if name = "." ∨ name = ".." ∨ slash then .error .isDirectory
    else if maxNameWidth < name.utf8ByteSize then .error .nameTooLong
    else .ok ⟨dir, name⟩
  | step :: rest =>
    if step = "." then v.follow slash dir rest
    else if step = ".." then v.follow slash dir.parent rest
    else if maxNameWidth < step.utf8ByteSize then .error .nameTooLong
    else if (v.read? ⟨dir, step⟩).isSome then .error .notDirectory
    else .error .notFound

/-- The place that a path leads to. Slashes one after another count as one. -/
def resolve (v : Volume) (path : String) : Except IoError Location :=
  let chars := path.toList
  if chars.contains '\x00' then .error .nulInPath
  else if chars.isEmpty then .error .notFound
  else if maxPathWidth < path.utf8ByteSize then .error .nameTooLong
  else v.follow (chars.getLast? == some '/')
    (if chars.head? = some '/' then .root else .start)
    (((chars.splitOn '/').filter (· ≠ [])).map String.ofList)

/-- The file that a path leads to: its place and its content. -/
def find? (v : Volume) (path : String) : Option (Location × Array UInt8) :=
  match v.resolve path with
  | .error _ => none
  | .ok l => (v.read? l).map (l, ·)

/-- Opens a file, which is made if it is missing: its place and its content. -/
def openFile (v : Volume) (path : String) :
    Except IoError (Location × Array UInt8 × Volume) := do
  let l ← v.resolve path
  match v.read? l with
  | some bytes => return (l, bytes, v)
  | none => return (l, #[], v.write l #[])

/-- Deletes a file. -/
def remove (v : Volume) (path : String) : Except IoError Volume := do
  let l ← v.resolve path
  match v.read? l with
  | some _ => return v.erase l
  | none => .error .notFound

theorem read?_erase (v : Volume) (l m : Location) :
    (v.erase l).read? m = if m = l then none else v.read? m := by
  unfold read? erase
  induction v.files with
  | nil => simp
  | cons entry files ih =>
    obtain ⟨other, bytes⟩ := entry
    by_cases ho : other = l
    · subst ho
      rw [List.filter_cons_of_neg (by simp), ih]
      split
      · rfl
      · rename_i hne
        rw [List.lookup_cons, beq_false_of_ne hne]
    · rw [List.filter_cons_of_pos (by simpa using ho), List.lookup_cons, List.lookup_cons, ih]
      by_cases hm : m = other
      · subst hm
        simp [ho]
      · rw [beq_false_of_ne hm]

theorem read?_write (v : Volume) (l m : Location) (bytes : Array UInt8) :
    (v.write l bytes).read? m = if m = l then some bytes else v.read? m := by
  have he := read?_erase v l m
  unfold read? write at *
  rw [List.lookup_cons]
  by_cases hm : m = l
  · simp [hm]
  · rw [beq_false_of_ne hm, if_neg hm]
    rw [if_neg hm] at he
    exact he

/-- Files can only be in the way of a path. One that leads somewhere leads there in every volume. -/
theorem follow_of_ok {v : Volume} {slash : Bool} {dir : Directory} {steps : List String}
    {l : Location} (h : v.follow slash dir steps = .ok l) (w : Volume) :
    w.follow slash dir steps = .ok l := by
  induction steps generalizing dir with
  | nil => cases h
  | cons step rest ih =>
    cases rest with
    | nil =>
      rw [follow] at h ⊢
      exact h
    | cons next rest =>
      simp only [follow] at h ⊢
      split at h
      · rename_i hdot
        rw [if_pos hdot]
        exact ih h
      · rename_i hdot
        rw [if_neg hdot]
        split at h
        · rename_i hdots
          rw [if_pos hdots]
          exact ih h
        · split at h
          · cases h
          · split at h <;> cases h

theorem resolve_of_ok {v : Volume} {path : String} {l : Location} (h : v.resolve path = .ok l)
    (w : Volume) : w.resolve path = .ok l := by
  unfold resolve at h ⊢
  dsimp only at h ⊢
  split at h
  · cases h
  · rename_i hnul
    rw [if_neg hnul]
    split at h
    · cases h
    · rename_i hempty
      rw [if_neg hempty]
      split at h
      · cases h
      · rename_i hlong
        rw [if_neg hlong]
        exact follow_of_ok h w

/-- A path that can be opened leads to the place of a file. -/
theorem openFile_eq_ok {v v' : Volume} {path : String} {l : Location} {bytes : Array UInt8}
    (h : v.openFile path = .ok (l, bytes, v')) :
    v.resolve path = .ok l ∧ v'.read? l = some bytes := by
  unfold openFile at h
  cases hl : v.resolve path with
  | error cause =>
    rw [hl] at h
    cases h
  | ok place =>
    rw [hl] at h
    dsimp only [bind, Except.bind] at h
    cases hfile : v.read? place with
    | some content =>
      rw [hfile] at h
      cases h
      exact ⟨rfl, hfile⟩
    | none =>
      rw [hfile] at h
      cases h
      exact ⟨rfl, by rw [read?_write, if_pos rfl]⟩

/-- **A path that was opened** leads to the file that is there now. -/
theorem openFile_again {v v' w : Volume} {path : String} {l : Location}
    {bytes bytes' : Array UInt8} (h : v.openFile path = .ok (l, bytes, v'))
    (hw : w.read? l = some bytes') : w.openFile path = .ok (l, bytes', w) := by
  unfold openFile
  rw [resolve_of_ok (openFile_eq_ok h).1 w]
  dsimp only [bind, Except.bind]
  rw [hw]
  rfl

end Volume

end PagedTable
