/-
# DeferFetch.Command.Arguments — what the arguments of the command line ask for.

The arguments are read from left to right, and the first that settles the matter does: a request for
help before a mistake is answered with help, and a mistake before a request for help is a mistake.
A flag or a setting may be given once, save for the extensions, which add up.
-/
import DeferFetch.Catalog.Persistence

namespace DeferFetch

/-- **`Refusal`** — why no command is run: help is asked for, or the arguments are at fault. -/
inductive Refusal where
  | help
  | usage
deriving DecidableEq, Repr, Inhabited

/-- **`RunOptions`** — which files to work on, and how. -/
structure RunOptions where
  checkOnly : Bool
  extensions : List String
  persistence : Namespace
  fold? : Option Nat
  paths : List String
deriving DecidableEq, Repr

/-- **`Command`** — what to do. -/
inductive Command where
  | makeLazy (options : RunOptions)
  | describe (persistence : Namespace)
deriving DecidableEq, Repr

namespace Command

/-! ## Words -/

/-- **`Word`** — an argument by its form: a plain word, the separator after which all words are
plain, a long option with or without a value, or a cluster of short ones. A lone hyphen is plain. -/
inductive Word where
  | plain (s : String)
  | separator
  | long (name : String) (value? : Option String)
  | short (letters : List Char)
deriving DecidableEq, Repr

/-- **`Word.ofText s`** — the form of an argument. -/
def Word.ofText (s : String) : Word :=
  match s.toList with
  | ['-', '-'] => .separator
  | '-' :: '-' :: option =>
    let value := option.dropWhile (· ≠ '=')
    .long (String.ofList (option.takeWhile (· ≠ '=')))
      (if value.isEmpty then none else some (String.ofList value.tail))
  | '-' :: letter :: letters => .short (letter :: letters)
  | _ => .plain s

/-- **`Flag`** — an option without a value. -/
inductive Flag where
  | help
  | version
  | verbose
  | check
deriving DecidableEq, Repr

/-- The long name of a flag. -/
def Flag.name : Flag → String
  | .help => "help"
  | .version => "version"
  | .verbose => "verbose"
  | .check => "check"

/-- The letter of a flag, if it has one. -/
def Flag.letter? : Flag → Option Char
  | .help => some 'h'
  | .version => some 'V'
  | .verbose => some 'v'
  | .check => none

/-- **`Setting`** — an option with a value. -/
inductive Setting where
  | persistence
  | foldImports
  | extensions
deriving DecidableEq, Repr

/-- The long name of a setting. -/
def Setting.name : Setting → String
  | .persistence => "namespace"
  | .foldImports => "fold-imports"
  | .extensions => "java-file-exts"

/-- **`Vocabulary`** — the words that may stand at a place on the command line. -/
structure Vocabulary where
  flags : List Flag
  settings : List Setting := []
  takesPaths : Bool := false

/-- What may stand before the name of a subcommand. -/
def Vocabulary.general : Vocabulary := { flags := [.help, .version, .verbose] }

/-! ## Values -/

/-- The numbers below this one fit into 64 bits. -/
def wordBound : Nat := 18446744073709551616

/-- **`threshold? s`** — the number in decimal digits, after at most a plus sign, that fits into
64 bits. -/
def threshold? (s : String) : Option Nat :=
  let digits := match s.toList with
    | '+' :: digits => digits
    | digits => digits
  let n := digits.foldl (fun n c => 10 * n + (c.toNat - '0'.toNat)) 0
  if !digits.isEmpty && digits.all Text.isDigit && n < wordBound then some n else none

/-- The extensions in a list separated by commas; dots in front of one do not count. -/
def extensionsIn (s : String) : List String :=
  (Text.split ',' s).map fun e => String.ofList (e.toList.dropWhile (· = '.'))

/-- **`Choices`** — what the arguments so far have settled. -/
structure Choices where
  flags : List Flag := []
  persistence? : Option Namespace := none
  fold? : Option Nat := none
  extensions : List String := []
  paths : List String := []
deriving DecidableEq, Repr

namespace Choices

/-- **`c.raise flag`** — a flag is met. -/
def raise (c : Choices) : Flag → Except Refusal Choices
  | .help | .version => .error .help
  | flag => if c.flags.contains flag then .error .usage else .ok { c with flags := flag :: c.flags }

/-- A letter in a cluster is met. -/
def raiseLetter (g : Vocabulary) (c : Choices) (letter : Char) : Except Refusal Choices :=
  match g.flags.find? fun flag => flag.letter? = some letter with
  | some flag => c.raise flag
  | none => .error .usage

/-- **`c.assign setting value`** — a setting is met. -/
def assign (c : Choices) (setting : Setting) (value : String) : Except Refusal Choices :=
  match setting with
  | .persistence =>
    match c.persistence?, Namespace.ofText? value with
    | none, some n => .ok { c with persistence? := some n }
    | _, _ => .error .usage
  | .foldImports =>
    match c.fold?, threshold? value with
    | none, some n => .ok { c with fold? := some n }
    | _, _ => .error .usage
  | .extensions => .ok { c with extensions := c.extensions ++ extensionsIn value }

/-- A path is met. -/
def addPath (g : Vocabulary) (c : Choices) (path : String) : Except Refusal Choices :=
  if g.takesPaths && path ≠ "" then .ok { c with paths := c.paths ++ [path] } else .error .usage

end Choices

/-! ## Reading the command line -/

/-- **`readChoices g c words`** — what the words behind the name of a subcommand settle. The value
of a setting follows an equals sign, or else is the next word, which must then be a plain one. -/
def readChoices (g : Vocabulary) (c : Choices) : List String → Except Refusal Choices
  | [] => .ok c
  | word :: words =>
    match Word.ofText word with
    | .separator => words.foldlM (Choices.addPath g) c
    | .plain path => do readChoices g (← c.addPath g path) words
    | .short letters => do readChoices g (← letters.foldlM (Choices.raiseLetter g) c) words
    | .long name (some value) =>
      match g.settings.find? (·.name = name) with
      | some setting => do readChoices g (← c.assign setting value) words
      | none => .error .usage
    | .long name none =>
      match g.flags.find? (·.name = name), g.settings.find? (·.name = name), words with
      | some flag, _, words => do readChoices g (← c.raise flag) words
      | none, some setting, value :: words =>
        match Word.ofText value with
        | .plain value => do readChoices g (← c.assign setting value) words
        | _ => .error .usage
      | none, _, _ => .error .usage

/-- **`Subcommand`** — the names that commands go by. -/
inductive Subcommand where
  | makeLazy
  | describe
deriving DecidableEq, Repr

namespace Subcommand

/-- The subcommand of that name. -/
def ofText? : String → Option Subcommand
  | "rewrite" => some .makeLazy
  | "describe" => some .describe
  | _ => none

/-- What may stand behind the name of the subcommand. -/
def vocabulary : Subcommand → Vocabulary
  | .makeLazy =>
    { flags := [.help, .verbose, .check], settings := [.persistence, .foldImports, .extensions],
      takesPaths := true }
  | .describe => { flags := [.help, .verbose], settings := [.persistence] }

/-- The command, once all arguments are read. Working on files needs a path. -/
def command (s : Subcommand) (c : Choices) : Except Refusal Command :=
  let persistence := c.persistence?.getD .jakarta
  match s with
  | .describe => .ok (.describe persistence)
  | .makeLazy =>
    if c.paths.isEmpty then .error .usage
    else
      .ok <| .makeLazy
        { checkOnly := c.flags.contains .check
          extensions := if c.extensions.isEmpty then ["java"] else c.extensions
          persistence
          fold? := c.fold?
          paths := c.paths }

end Subcommand

/-- What a request for help with some topic comes to: there is help with the subcommands and with
help itself. -/
def helpOn : List String → Refusal
  | [] => .help
  | [topic] => if topic = "help" || (Subcommand.ofText? topic).isSome then .help else .usage
  | _ => .usage

/-- **`readCommand c words`** — the command that the words ask for, when `c` is settled already. -/
def readCommand (c : Choices) : List String → Except Refusal Command
  | [] => .error .help
  | word :: words =>
    match Word.ofText word with
    | .separator => .error (if words.isEmpty then .help else .usage)
    | .plain name =>
      match Subcommand.ofText? name with
      | some s => readChoices s.vocabulary {} words >>= s.command
      | none => .error (if name = "help" then helpOn words else .usage)
    | .short letters => do readCommand (← letters.foldlM (Choices.raiseLetter .general) c) words
    | .long name none =>
      match Vocabulary.general.flags.find? (·.name = name) with
      | some flag => do readCommand (← c.raise flag) words
      | none => .error .usage
    | .long _ (some _) => .error .usage

/-- **`ofArguments words`** — the command that the arguments ask for. -/
def ofArguments (words : List String) : Except Refusal Command := readCommand {} words

end Command

end DeferFetch
