import DeferFetch.Token.Lexer
import DeferFetch.Token.Lookahead
import DeferFetch.Diagnostic.Render
import DeferFetch.Parser.Unit
import DeferFetch.Syntax.Traversal
import DeferFetch.Laziness.Recipe
import DeferFetch.Command.Run
import DeferFetch.Main
import DeferFetch.Proofs.Grammar.Declaration
import DeferFetch.Proofs.Grammar.Plain
import DeferFetch.Proofs.Grammar.Standing
import DeferFetch.Proofs.Grammar.Text
import DeferFetch.Proofs.Laziness.Gate
import DeferFetch.Proofs.Grammar.Progress
import DeferFetch.Proofs.Grammar.Reprint
import DeferFetch.Proofs.Grammar.Context
import DeferFetch.Proofs.Grammar.Relabel
import DeferFetch.Proofs.Grammar.Unique
import DeferFetch.Proofs.Laziness.Attempts
import DeferFetch.Proofs.Laziness.Checked
import DeferFetch.Proofs.Grammar.Order
import DeferFetch.Proofs.Grammar.Balance
import DeferFetch.Proofs.Imports.Folding
import DeferFetch.Proofs.Imports.Reseeding
import DeferFetch.Proofs.Grammar.Overlay
import DeferFetch.Proofs.Imports.Readable
import DeferFetch.Proofs.Laziness.Again
import DeferFetch.Proofs.Walk.Isolation
import DeferFetch.Proofs.Grammar.Alone
import DeferFetch.Proofs.Imports.Frame
import DeferFetch.Proofs.Lexing.Spaced
import DeferFetch.Proofs.Lexing.Places
import DeferFetch.Proofs.Grammar.Bodies
import DeferFetch.Proofs.Imports.Sorting
import DeferFetch.Proofs.Imports.Comments
import DeferFetch.Proofs.Naming.Reordering
import DeferFetch.Proofs.Laziness.Reporting
import DeferFetch.Proofs.Grammar.Located
import DeferFetch.Proofs.Diagnostic.Snippets
import DeferFetch.Proofs.Files.Found
import DeferFetch.Proofs.Command.Workers
import DeferFetch.Proofs.Lexing.Lookahead
import DeferFetch.Proofs.Walk.Tokens
