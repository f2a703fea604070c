/-
# DeferFetch.Diagnostic.Basic — what is reported about a source text.

A `Diagnostic` has a sentence for the reader, a kind for programs, the span it is about and notes.
How one is shown beside the source line is `DeferFetch.Diagnostic.Render`.
-/
import DeferFetch.Source.Span

namespace DeferFetch

/-- **`Note`** — a remark below a diagnostic: context, which may point at another span, or advice on
how to mend the error. -/
inductive Note where
  | context (message : String)
  | pointing (message : String) (span : Span)
  | help (message : String)
deriving DecidableEq, Repr, Inhabited

namespace Note

/-- The words of the note. -/
def message : Note → String
  | .context m | .pointing m _ | .help m => m

/-- The span that the note points at. -/
def span? : Note → Option Span
  | .pointing _ span => some span
  | _ => none

/-- The note is advice. -/
def isHelp : Note → Bool
  | .help _ => true
  | _ => false

end Note

/-- **`Diagnostic.Kind`** — the class an error falls into, with the texts that tell its cases
apart. -/
inductive Diagnostic.Kind where
  | unexpectedToken (expected : List String) (found : String)
  | unexpectedEnd (expected : List String)
  | lexical
  | unclosedDelimiter (delimiter : String)
  | mismatchedDelimiter (expected found : String)
  | nestingTooDeep
  | invalidSyntax
deriving DecidableEq, Repr, Inhabited

/-- **`Diagnostic`** — one error found in a source text. -/
structure Diagnostic where
  message : String
  span : Span
  kind : Diagnostic.Kind
  notes : List Note := []
deriving DecidableEq, Repr, Inhabited

namespace Diagnostic

/-- The short name of the class of errors. -/
def Kind.summary : Kind → String
  | .unexpectedToken _ found => "unexpected token: `" ++ found ++ "`"
  | .unexpectedEnd _ => "unexpected end of input"
  | .lexical => "lexer error"
  | .unclosedDelimiter delimiter => "unclosed delimiter: `" ++ delimiter ++ "`"
  | .mismatchedDelimiter _ _ => "mismatched delimiter"
  | .nestingTooDeep => "nesting too deep"
  | .invalidSyntax => "invalid syntax"

/-- **`d.oneLine`** — the error on one line, with its place. -/
def oneLine (d : Diagnostic) : String := d.span.location ++ ": error: " ++ d.message

end Diagnostic

/-- The errors on one line, separated by semicolons. -/
def Diagnostic.joined (ds : List Diagnostic) : String :=
  String.intercalate "; " (ds.map Diagnostic.oneLine)

end DeferFetch
