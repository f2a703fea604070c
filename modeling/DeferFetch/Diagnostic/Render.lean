/-
# DeferFetch.Diagnostic.Render — a diagnostic beside the source line it is about.

The full form has a headline, the place, the source line with carets under the span, and the notes,
each with a snippet of its own if it points somewhere. Without a source the snippets are left out.
-/
import DeferFetch.Diagnostic.Basic

namespace DeferFetch

/-- `n` blanks. -/
def blanks (n : Nat) : String := String.ofList (List.replicate n ' ')

/-- `s` with blanks before it, up to the width `n`. -/
def padLeft (n : Nat) (s : String) : String := blanks (n - s.length) ++ s

/-- **`Span.underline span line`** — how many carets stand under the line of the span's start: up to
the span's end if that is on the same line, else up to the end of `line`, and at least one. -/
def Span.underline (span : Span) (line : String) : Nat :=
  let stop := if span.stop.line = span.start.line then span.stop.column else line.length
  max (stop - span.start.column) 1

/-- **`snippet source span`** — the source line on which `span` starts, numbered, between a blank
gutter line and a line of carets; nothing if the source has no such line. -/
def snippet (source : String) (span : Span) : Option String :=
  (Text.lines source)[span.start.line]?.map fun line =>
    let number := toString (span.start.line + 1)
    let width := max number.length 2
    let carets := String.ofList (List.replicate (span.underline line) '^')
    blanks width ++ " |\n"
      ++ padLeft width number ++ " | " ++ line ++ "\n"
      ++ blanks width ++ " | " ++ blanks span.start.column ++ carets ++ "\n"

namespace Diagnostic

/-- The snippet of `span`, if there are a source and such a line. -/
def excerpt (source : Option String) (span : Option Span) : String :=
  (source.bind fun text => span.bind (snippet text)).getD ""

/-- A note on its own line, with the snippet it points at. -/
def renderNote (source : Option String) (note : Note) : String :=
  "   = " ++ (if note.isHelp then "help" else "note") ++ ": " ++ note.message ++ "\n"
    ++ excerpt source note.span?

/-- **`d.render source`** — the full form of the error. -/
def render (d : Diagnostic) (source : Option String) : String :=
  "error: " ++ d.message ++ "\n"
    ++ "  --> " ++ d.span.location ++ "\n"
    ++ excerpt source (some d.span)
    ++ String.join (d.notes.map (renderNote source))

/-- The full forms of several errors, a blank line between them. -/
def renderAll (ds : List Diagnostic) (source : Option String) : String :=
  String.intercalate "\n" (ds.map (·.render source))

end Diagnostic

end DeferFetch
