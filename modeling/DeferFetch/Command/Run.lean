/-
# DeferFetch.Command.Run — carrying out a command on a file tree.

Files are processed one after the other, each in two steps: its text is read and worked on, and then
the new text is stored. A file that was found twice is read the second time with what was stored the
first time.
-/
import DeferFetch.Command.Arguments
import DeferFetch.Command.Report

namespace DeferFetch

/-! ## Working on files -/

/-- **`r.examine t file`** — the first step: the report on a file as it is in the tree. -/
def Recipe.examine (r : Recipe) (t : FileTree) (file : FoundFile) : FileReport where
  path := file.path
  result :=
    match t.readFound file with
    | .error cause => .error (.unreadable file.path cause)
    | .ok source => (r.runSource source (some file.path)).mapError .erroneous

/-- **`t.store file report`** — the second step: the tree with the new text, if there is one. -/
def FileTree.store (t : FileTree) (file : FoundFile) (report : FileReport) : FileTree :=
  match report.newText? with
  | some s => t.write file.names s
  | none => t

/-- **`r.runFiles checkOnly t files`** — the reports on the files in order, and the tree in the
end. If it only checks, nothing is stored. -/
def Recipe.runFiles (r : Recipe) (checkOnly : Bool) (t : FileTree) :
    List FoundFile → List FileReport × FileTree
  | [] => ([], t)
  | file :: files =>
    let report := r.examine t file
    let t := if checkOnly then t else t.store file report
    let (reports, t) := r.runFiles checkOnly t files
    (report :: reports, t)

namespace RunOptions

/-- The recipe that the options ask for. -/
def recipe (o : RunOptions) : Recipe := .ofNamespace o.persistence o.fold?

/-- The files to work on, and the paths at which there are none. -/
def search (o : RunOptions) (t : FileTree) : List FoundFile × List SearchError :=
  t.searchAll o.extensions o.paths

/-- **`o.run t`** — makes the associations in the files lazy. -/
def run (o : RunOptions) (t : FileTree) : Summary × FileTree :=
  let (files, searchErrors) := o.search t
  let (reports, t) := o.recipe.runFiles o.checkOnly t files
  ({ checkOnly := o.checkOnly, reports, searchErrors }, t)

end RunOptions

/-! ## Commands -/

/-- What the recipe for a persistence package does, in a few lines. -/
def Recipe.overview (r : Recipe) : String :=
  Recipe.displayName ++ " (" ++ Recipe.name ++ ")\n"
    ++ "  " ++ Recipe.description ++ "\n"
    ++ "  * Rewrites `@" ++ r.targets.oneToOne ++ "` and `@" ++ r.targets.manyToOne ++ "`.\n"
    ++ "  * Sets `fetch` to `" ++ r.targets.fetchType ++ ".LAZY`.\n"
    ++ "  * Resolves names against " ++ toString r.catalog.size ++ " known types."

/-- **`c.run t`** — what a command comes to, and the tree after it. -/
def Command.run (c : Command) (t : FileTree) : CommandResult × FileTree :=
  match c with
  | .describe persistence => ({ stdout? := some (Recipe.ofNamespace persistence).overview }, t)
  | .makeLazy options =>
    let (summary, t) := options.run t
    (summary.result, t)

end DeferFetch
