/-
# DeferFetch.Command.Report — what became of the files, and what is said of it.

Each file has a report: it was processed, with sites and failures of its own, or it could not be
read, or it has syntax errors. The counts of the summary are sums over the reports.
-/
import DeferFetch.Files.Search
import DeferFetch.Laziness.Recipe

namespace DeferFetch

/-! ## Records -/

/-- **`LogLevel`** — how grave a record is. -/
inductive LogLevel where
  | error
  | warn
  | info
deriving DecidableEq, Repr

/-- **`LogRecord`** — a remark on the side. -/
structure LogRecord where
  level : LogLevel
  message : String
deriving DecidableEq, Repr

/-! ## Reports -/

/-- **`FileError`** — why a file was not processed. -/
inductive FileError where
  | unreadable (path : String) (cause : AccessError)
  | erroneous (errors : SourceErrors)
deriving DecidableEq, Repr

/-- The report on the error. -/
def FileError.message : FileError → String
  | .unreadable path cause => "Failed to read " ++ path ++ ": " ++ cause.message
  | .erroneous errors => errors.message

/-- **`FileReport`** — what became of the file at a path. -/
structure FileReport where
  path : String
  result : Except FileError SourceRun

namespace FileReport

/-- The annotations that were replaced. -/
def sites (r : FileReport) : List Site := (r.result.toOption.map (·.sites)).getD []

/-- The annotations that could not be replaced. -/
def failures (r : FileReport) : List Failure := (r.result.toOption.map (·.failures)).getD []

/-- The text that the file should hold now, if it is another one. -/
def newText? (r : FileReport) : Option String :=
  match r.result with
  | .ok run => if run.isChanged then some run.output else none
  | .error _ => none

/-- The file could not be processed. -/
def isError (r : FileReport) : Bool :=
  match r.result with
  | .ok _ => false
  | .error _ => true

/-- The records made while the file is processed: a warning for each failure. -/
def warnings (r : FileReport) : List LogRecord := r.failures.map fun f => ⟨.warn, f.message⟩

/-- The records made in the end: the sites and then the failures, or why there are none. -/
def records (r : FileReport) : List LogRecord :=
  match r.result with
  | .error e => [⟨.error, e.message⟩]
  | .ok run =>
    (run.sites.map fun s =>
      ⟨.info, s.span.location ++ ": `" ++ s.before ++ "` -> `" ++ s.after ++ "`"⟩)
    ++ run.failures.map fun f => ⟨.error, f.message⟩

end FileReport

/-! ## Summary -/

/-- **`Summary`** — the reports on all files, and the paths at which there were none. -/
structure Summary where
  checkOnly : Bool
  reports : List FileReport
  searchErrors : List SearchError

/-- **`CommandResult`** — the exit code of a command, what it prints, and its records. -/
structure CommandResult where
  exitCode : Nat := 0
  stdout? : Option String := none
  stderr? : Option String := none
  records : List LogRecord := []
deriving DecidableEq, Repr

namespace Summary

/-- How many annotations were replaced. -/
def siteCount (s : Summary) : Nat := (s.reports.flatMap (·.sites)).length

/-- How many annotations could not be replaced. -/
def failureCount (s : Summary) : Nat := (s.reports.flatMap (·.failures)).length

/-- How many paths could not be processed. -/
def errorCount (s : Summary) : Nat := s.searchErrors.length + s.reports.countP (·.isError)

/-- The files with a new text. -/
def changedPaths (s : Summary) : List String :=
  (s.reports.filter (·.newText?.isSome)).map (·.path)

/-- **`s.text`** — the counts, and the files with a new text. -/
def text (s : Summary) : String :=
  (if s.checkOnly then "Would rewrite " else "Rewrote ") ++ toString s.siteCount
    ++ " annotation(s) in " ++ toString s.changedPaths.length ++ " file(s):\n"
    ++ "  * Analyzed " ++ toString s.reports.length ++ " files.\n"
    ++ "  * " ++ toString s.errorCount ++ " path(s) could not be processed.\n"
    ++ "  * " ++ toString s.failureCount ++ " annotation(s) could not be rewritten."
    ++ String.join (s.changedPaths.map ("\n    " ++ ·))

/-- All records: those made on the way and those made in the end. -/
def records (s : Summary) : List LogRecord :=
  s.reports.flatMap (·.warnings) ++ s.reports.flatMap (·.records)
    ++ s.searchErrors.map fun e => ⟨.error, e.message⟩

/-- **`s.result`** — what the command comes to. It fails if anything went wrong, and also if it only
checks and a file should change. -/
def result (s : Summary) : CommandResult :=
  if s.errorCount ≠ 0 || s.failureCount ≠ 0 then
    { exitCode := 1, stderr? := some ("❌ " ++ s.text), records := s.records }
  else if s.checkOnly && !s.changedPaths.isEmpty then
    { exitCode := 1, stdout? := some ("✏\ufe0f " ++ s.text), records := s.records }
  else { stdout? := some ("✅ " ++ s.text), records := s.records }

end Summary

end DeferFetch
