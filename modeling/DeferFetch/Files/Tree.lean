/-
# DeferFetch.Files.Tree — files and directories by name.

A `FileTree` holds files and directories, each known by its names from the root on, and the
directory from which relative paths start. A path is followed name by name, so a path through
something that is no directory leads nowhere, even if a later name would lead back out of it. Paths
and names that are too long lead nowhere either.

There are no symbolic links: every file and every directory is known by one list of names, and no name
on the way along a path stands for another path.
-/
import DeferFetch.Text.CharClass

namespace DeferFetch

/-- **`FileContent`** — what a file holds: a text, or bytes that are none. -/
inductive FileContent where
  | text (s : String)
  | undecodable
deriving DecidableEq, Repr, Inhabited

/-- **`AccessError`** — why there is no text at the end of a path. -/
inductive AccessError where
  | missing
  | notDirectory
  | nameTooLong
  | nulCharacter
  | undecodable
deriving DecidableEq, Repr, Inhabited

/-- What is said of the error. -/
def AccessError.message : AccessError → String
  | .missing => "No such file or directory (os error 2)"
  | .notDirectory => "Not a directory (os error 20)"
  | .nameTooLong => "File name too long (os error 36)"
  | .nulCharacter => "file name contained an unexpected NUL byte"
  | .undecodable => "stream did not contain valid UTF-8"

/-- **`FileTree`** — files with their contents and directories, by their names from the root on. The
directory `home` is the one from which relative paths start. -/
structure FileTree where
  home : List String := []
  files : List (List String × FileContent) := []
  directories : List (List String) := []
deriving Repr

namespace FileTree

/-- What the file of those names holds, if there is one. -/
def content? (t : FileTree) (names : List String) : Option FileContent := t.files.lookup names

/-- The names are those of a file. -/
def isFile (t : FileTree) (names : List String) : Bool := (t.content? names).isSome

/-- The names are those of a directory; the root has no names. -/
def isDirectory (t : FileTree) (names : List String) : Bool :=
  names.isEmpty || t.directories.contains names

/-! ## Building a tree -/

/-- The tree with a directory, and those above it. -/
def addDirectory (t : FileTree) (names : List String) : FileTree :=
  let above := (List.range names.length).map fun n => names.take (n + 1)
  { t with directories := t.directories ++ above.filter fun d => !t.directories.contains d }

/-- The tree with a file in place of one of the same names, if there is one, and with the
directories above it. -/
def addFile (t : FileTree) (names : List String) (content : FileContent) : FileTree :=
  let t := t.addDirectory names.dropLast
  { t with files := t.files.filter (fun f => f.1 ≠ names) ++ [(names, content)] }

/-- The tree with nothing but a directory from which relative paths start. -/
def startingAt (home : List String) : FileTree := addDirectory { home } home

/-- The names along a path, those that stay in place left out. -/
def namesAlong (path : String) : List String :=
  (Text.split '/' path).filter fun name => name ≠ "" && name ≠ "."

/-! ## Following a path -/

/-- The most bytes that a single name can have. -/
def maxNameSize : Nat := 255

/-- The most bytes that a path can have. -/
def maxPathSize : Nat := 4095

/-- What is wrong with the text of a path, whatever there is at its end. -/
def pathFault? (path : String) : Option AccessError :=
  if path.toList.contains '\x00' then some .nulCharacter
  else if maxPathSize < path.utf8ByteSize then some .nameTooLong
  else none

/-- Where a path starts: at the root, if it begins with a slash. -/
def origin (t : FileTree) (path : String) : List String :=
  if path.toList.head? = some '/' then [] else t.home

/-- **`t.step here name`** — one step on the way along a path. The parent of the root is the root.
-/
def step (t : FileTree) (here : List String) (name : String) :
    Except AccessError (List String) :=
  if t.isFile here then .error .notDirectory
  else if name = "" || name = "." then .ok here
  else if name = ".." then .ok here.dropLast
  else if maxNameSize < name.utf8ByteSize then .error .nameTooLong
  else
    let there := here ++ [name]
    if t.isFile there || t.isDirectory there then .ok there else .error .missing

/-- **`t.locate path`** — the names of the file or directory at the end of a path. -/
def locate (t : FileTree) (path : String) : Except AccessError (List String) :=
  match pathFault? path with
  | some fault => .error fault
  | none => (Text.split '/' path).foldlM t.step (t.origin path)

/-! ## Reading and writing -/

/-- The text in a file. -/
def read (t : FileTree) (names : List String) : Except AccessError String :=
  match t.content? names with
  | some (.text s) => .ok s
  | some .undecodable => .error .undecodable
  | none => .error .missing

/-- The tree with another text in a file that there is. -/
def write (t : FileTree) (names : List String) (s : String) : FileTree :=
  { t with files := t.files.map fun f => if f.1 = names then (f.1, .text s) else f }

/-- Writing changes what one file holds, and makes none. -/
theorem content?_write (t : FileTree) (names other : List String) (s : String) :
    (t.write names s).content? other
      = if other = names then (t.content? other).map fun _ => .text s else t.content? other := by
  obtain ⟨home, files, directories⟩ := t
  simp only [content?, write]
  induction files with
  | nil => simp
  | cons f files ih =>
    obtain ⟨n, c⟩ := f
    simp only [List.map_cons, List.lookup_cons]
    by_cases hn : n = names <;> by_cases ho : other = n <;> grind

end FileTree

end DeferFetch
