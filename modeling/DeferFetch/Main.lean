/-
# DeferFetch.Main — the command line.

The paths among the arguments are loaded from disk into a `FileTree`, the command is run on it, and
the files that changed are written back. Errors of the disk itself end the program.
-/
import DeferFetch.Command.Run

namespace DeferFetch.Main

/-- The place on disk of a file or directory. -/
def onDisk (names : List String) := System.mkFilePath ["/" ++ String.intercalate "/" names]

/-- The tree with the file of those names as it is on disk. -/
def loadFile (t : FileTree) (names : List String) : IO FileTree := do
  let bytes ← IO.FS.readBinFile (onDisk names)
  return t.addFile names <| match String.fromUTF8? bytes with
    | some s => .text s
    | none => .undecodable

/-- The tree with a directory and all that lies below it, files without a wanted extension aside. -/
partial def loadDirectory (extensions : List String) (t : FileTree) (names : List String) :
    IO FileTree := do
  let mut t := t.addDirectory names
  for entry in ← (onDisk names).readDir do
    let names := names ++ [entry.fileName]
    if ← (onDisk names).isDir then t ← loadDirectory extensions t names
    else if FileTree.hasExtension extensions names then t ← loadFile t names
  return t

/-- The tree with all that a path leads to, and what it passes on the way. -/
def loadPath (extensions : List String) (t : FileTree) (path : String) : IO FileTree := do
  let mut t := t
  let mut here := t.origin path
  for name in FileTree.namesAlong path do
    here := if name = ".." then here.dropLast else here ++ [name]
    if ← (onDisk here).isDir then t := t.addDirectory here
    else if ← (onDisk here).pathExists then t ← loadFile t here
  if ← (onDisk here).isDir then loadDirectory extensions t here else return t

/-- The tree that a command looks at. -/
def load (command : Command) : IO FileTree := do
  let home := FileTree.namesAlong (toString (← IO.currentDir))
  match command with
  | .describe _ => return .startingAt home
  | .makeLazy options =>
    options.paths.foldlM (loadPath options.extensions) (.startingAt home)

/-- Writes the files that differ from those in the tree before. -/
def storeChanges (before after : FileTree) : IO Unit := do
  for (names, content) in after.files do
    if before.content? names ≠ some content then
      if let .text s := content then IO.FS.writeFile (onDisk names) s

/-- How the program is called. -/
def usage : String :=
  "Usage: deferfetch [-v] rewrite [--check] [--namespace <NAME>] [--fold-imports <N>]\n"
    ++ "                               [--java-file-exts <EXT,...>] <PATH>...\n"
    ++ "       deferfetch [-v] describe [--namespace <NAME>]"

/-- The name of a level in the log. -/
def levelName : LogLevel → String
  | .error => "ERROR"
  | .warn => "WARN"
  | .info => "INFO"

end DeferFetch.Main

open DeferFetch DeferFetch.Main in
/-- Runs the command that the arguments ask for. -/
def main (arguments : List String) : IO UInt32 := do
  match Command.ofArguments arguments with
  | .error .help =>
    IO.println usage
    return 0
  | .error .usage =>
    IO.eprintln usage
    return 2
  | .ok command =>
    let before ← load command
    let (result, after) := command.run before
    storeChanges before after
    for record in result.records do
      IO.eprintln (levelName record.level ++ " " ++ record.message)
    if let some s := result.stdout? then IO.println s
    if let some s := result.stderr? then IO.eprintln s
    return result.exitCode.toUInt32
