import RebolScan.Header
import RebolScan.Scan.Transcode
import RebolScan.Text.Escaped
import RebolScan.Token.Tokenizer
import RebolScan.Value.Render

/-!
# The command line

What the program prints. `Command.parse` makes a command of the arguments, and `Command.run` the
output of a command and the content of its file. Reading the file is left to the caller; everything
else is decided here.
-/

set_option autoImplicit false

namespace RebolScan

/-- What a run of the program leaves behind. -/
structure Outcome where
  code : Nat
  out : String
  err : String
deriving DecidableEq, Repr

/-- A run that went well. -/
def Outcome.done (out : String) : Outcome := ⟨0, out, ""⟩

/-- A run that failed with a message. -/
def Outcome.failed (err : String) : Outcome := ⟨1, "", err⟩

/-- What to do with a file. -/
inductive FileTask
  /-- scan it and print each value -/
  | load (options : Options)
  /-- print its tokens -/
  | tokens
  /-- locate its header -/
  | header
  /-- check that it holds one word -/
  | word
  /-- check that it holds the text of an issue -/
  | issue
deriving DecidableEq, Repr

inductive Command
  | onFile (task : FileTask) (path : String)
  /-- print a text that is known without a file -/
  | say (outcome : Outcome)
deriving DecidableEq, Repr

/-- Lines with their line feeds. -/
def unlines (lines : List String) : String := lines.foldl (fun out line => out ++ line ++ "\n") ""

/-- The help text. -/
def usage : String := unlines
  ["REBOL-family scanner",
   "",
   "Usage: rebc <command> <file> [options]",
   "",
   "Commands:",
   "  load <file>      Scan and print each value",
   "  tokens <file>    Print the raw token stream",
   "  header <file>    Locate the REBOL [...] header",
   "  word <file>      Check that the file holds exactly one word",
   "  issue <file>     Check that the file holds valid issue text",
   "  help             Show this help message",
   "  version          Show version information",
   "",
   "Load options:",
   "  --next           Stop after the first value",
   "  --only           Stop after the first value, rejecting blocks",
   "  --relax          Record malformed input and keep scanning",
   "",
   "Set RUST_LOG (e.g. RUST_LOG=reb_lexer=debug) for scanner logs."]

def version : String := "rebc 0.1.0-alpha.1"

namespace Command

/-! ## Arguments -/

/-- Reads the arguments after the command: flags, in any order, and one path. Gives back the
argument that is neither. -/
def parseArguments (options : Options) (path : Option String) :
    List String → Except String (Options × Option String)
  | [] => .ok (options, path)
  | arg :: args =>
    if arg == "--next" then parseArguments { options with next := true } path args
    else if arg == "--only" then parseArguments { options with only := true } path args
    else if arg == "--relax" then parseArguments { options with relaxed := true } path args
    else if !arg.startsWith "-" && path.isNone then parseArguments options (some arg) args
    else .error arg

/-- A task on a file, or how the command is used if no file is given. -/
def needFile (task : FileTask) (use : String) : Option String → Command
  | some path => .onFile task path
  | none => .say (.failed (unlines ["Usage: rebc " ++ use]))

/-- The command that arguments ask for. What is wrong with a flag is said before what is wrong with
the command. -/
def parse : List String → Command
  | [] => .say (.done usage)
  | name :: args =>
    match parseArguments .standard none args with
    | .error arg => .say (.failed (unlines ["error: unknown option '" ++ arg ++ "'"]))
    | .ok (options, path) =>
      match name with
      | "load" => needFile (.load options) "load <file> [--next] [--only] [--relax]" path
      | "tokens" => needFile .tokens "tokens <file>" path
      | "header" => needFile .header "header <file>" path
      | "word" => needFile .word "word <file>" path
      | "issue" => needFile .issue "issue <file>" path
      | "help" | "--help" | "-h" => .say (.done usage)
      | "version" | "--version" | "-v" => .say (.done (unlines [version]))
      | _ => .say ⟨1, usage, unlines ["Unknown command: " ++ name, ""]⟩

/-! ## Files -/

/-- The line of one value. An arrow in front says that a line break came before it. -/
def itemLine (t : SymbolTable) (item : Item) : String :=
  (if item.newLine then "\u21b5 " else "  ") ++ item.value.render t ++ " @ " ++ item.span.text

/-- The values of a file. -/
def load (options : Options) (path : String) (content : Bytes) : Outcome :=
  let (result, symbols) := transcode content SymbolTable.initial options
  match result with
  | .error failure =>
    let count := if 1 < failure.count then ["(" ++ toString failure.count ++ " errors)"] else []
    .failed (unlines (("error: " ++ failure.fault.text) :: count))
  | .ok t =>
    let title := "Values for '" ++ path ++ "' (" ++ toString t.values.items.length ++ " values, "
      ++ toString t.consumed ++ " bytes consumed):"
    let faults :=
      if t.faults.isEmpty then [] else "" :: "Errors:" :: t.faults.map fun f => "  " ++ f.text
    .done (unlines (title :: t.values.items.map (itemLine symbols) ++ faults))

/-- The line of one token. -/
def tokenLine (content : Bytes) (token : Token) : String :=
  let text := Utf8.lossy (between content token.start token.stop)
  "  " ++ token.kind.name ++ " @ " ++ (Span.mk token.start token.stop).text
    ++ (if token.malformed then " (malformed) " else " ") ++ Text.quotedText text

/-- The tokens of a file. -/
def tokens (path : String) (content : Bytes) : Outcome :=
  let tokens := (Tokenizer.tokens content).1.map (·.1)
  let title := "Tokens for '" ++ path ++ "' (" ++ toString tokens.length ++ " tokens):"
  .done (unlines (title :: tokens.map (tokenLine content)))

/-- Where the header of a file is. -/
def header (path : String) (content : Bytes) : Outcome :=
  match findHeader content with
  | some h =>
    .done (unlines [h.kind.name ++ " header at byte " ++ toString h.offset ++ " (block at "
      ++ toString h.block ++ ", line " ++ toString h.line ++ ")"])
  | none => .failed (unlines ["no header in '" ++ path ++ "'"])

/-- What a file holds as a single name, blanks around it left out. -/
def name (read : Bytes → SymbolTable → Option Symbol × SymbolTable) (label refusal : String)
    (content : Bytes) : Outcome :=
  match read (trimBlanks content) SymbolTable.initial with
  | (some s, symbols) => .done (unlines [label ++ symbols.lookup s])
  | (none, _) => .failed (unlines [refusal])

/-- What a task prints about a file. -/
def runTask (task : FileTask) (path : String) (content : Bytes) : Outcome :=
  match task with
  | .load options => load options path content
  | .tokens => tokens path content
  | .header => header path content
  | .word => name scanWord "word: " "not a word" content
  | .issue => name scanIssue "issue: #" "not an issue" content

/-- The file that a command reads. -/
def path? : Command → Option String
  | .onFile _ path => some path
  | .say _ => none

/-- The outcome of a command, given the content of its file; none if there is no such file. -/
def run (command : Command) (content : Option Bytes) : Outcome :=
  match command, content with
  | .say outcome, _ => outcome
  | .onFile task path, some content => runTask task path content
  | .onFile _ path, none => .failed (unlines ["cannot find file '" ++ path ++ "'"])

end Command

end RebolScan
