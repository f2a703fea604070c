/-
# DeferFetch.Files.Search — the files that path arguments stand for.

A path to a file stands for that file, whatever its name. A path to a directory stands for the
files at any depth below it that have one of the wanted extensions, in the order of their names:
what is in a directory comes where the name of the directory comes.

A search has no links to follow, as there are none in a `FileTree`: what it finds below a directory are
the files whose names begin with those of the directory.
-/
import DeferFetch.Files.Tree

namespace DeferFetch

/-- **`extension? name`** — what follows the last dot of a file's name. A name without a dot has no
extension, nor has one whose only dot is its first character. -/
def extension? (name : String) : Option String :=
  match Text.split '.' name with
  | [] | [_] | ["", _] => none
  | pieces => pieces.getLast?

/-- **`FoundFile`** — a file, and the path by which it was found. -/
structure FoundFile where
  path : String
  names : List String
deriving DecidableEq, Repr, Inhabited

/-- **`SearchError`** — a path at which a search for what an argument stands for went wrong: the
argument itself, or that of a directory below it. -/
structure SearchError where
  argument : String
  path : String
  cause : AccessError
deriving DecidableEq, Repr, Inhabited

/-- The report on a failed search. -/
def SearchError.message (e : SearchError) : String :=
  "Failed to scan " ++ e.argument ++ ": IO error for operation on " ++ e.path ++ ": "
    ++ e.cause.message ++ ": " ++ e.cause.message

/-- The path to what lies below a directory, given the path to the directory. -/
def pathBelow (path : String) (below : List String) : String :=
  path ++ (if path.toList.getLast? = some '/' then "" else "/") ++ String.intercalate "/" below

/-- **`comesBefore as bs`** — the file of the names `as` is not listed after that of the names `bs`:
the first name in which they differ decides. -/
def comesBefore : List String → List String → Bool
  | [], _ => true
  | _ :: _, [] => false
  | a :: as, b :: bs => if a = b then comesBefore as bs else a < b

namespace FileTree

/-- **`t.entriesBelow names`** — the files and directories at any depth below a directory, each by
its names from that directory on, in order. -/
def entriesBelow (t : FileTree) (names : List String) : List (List String) :=
  let inside := (t.files.map Prod.fst ++ t.directories).filterMap fun entry =>
    if names.isPrefixOf entry && entry ≠ names then some (entry.drop names.length) else none
  inside.mergeSort comesBefore

/-- The file has one of the extensions. -/
def hasExtension (extensions : List String) (below : List String) : Bool :=
  (below.getLast?.bind extension?).any extensions.contains

/-- **`t.resultAt extensions path names below`** — what a search finds at an entry below the
directory `names`, to which `path` leads: a file with one of the extensions, an error if a directory
cannot be listed, or nothing. What is below such a directory does not show. -/
def resultAt (t : FileTree) (extensions : List String) (path : String)
    (names below : List String) : Option (Except SearchError FoundFile) :=
  let found := pathBelow path below
  let parent := below.dropLast
  if !parent.isEmpty && (pathFault? (pathBelow path parent)).isSome then none
  else if t.isFile (names ++ below) then
    if hasExtension extensions below then some (.ok ⟨found, names ++ below⟩) else none
  else (pathFault? found).map fun cause => .error ⟨path, found, cause⟩

/-- **`t.search extensions path`** — the files that a path stands for and the errors of the search,
in order. -/
def search (t : FileTree) (extensions : List String) (path : String) :
    List (Except SearchError FoundFile) :=
  match t.locate path with
  | .error cause => [.error ⟨path, path, cause⟩]
  | .ok names =>
    if t.isFile names then [.ok ⟨path, names⟩]
    else (t.entriesBelow names).filterMap (t.resultAt extensions path names)

/-- **`t.searchAll extensions paths`** — the files that several paths stand for and the errors of
the search, each in order. A file that several paths stand for is found several times. -/
def searchAll (t : FileTree) (extensions : List String) (paths : List String) :
    List FoundFile × List SearchError :=
  let results := paths.flatMap (t.search extensions)
  (results.filterMap Except.toOption,
    results.filterMap fun
      | .ok _ => none
      | .error e => some e)

/-- The text in a file that was found. -/
def readFound (t : FileTree) (file : FoundFile) : Except AccessError String :=
  match pathFault? file.path with
  | some fault => .error fault
  | none => t.read file.names

end FileTree

end DeferFetch
