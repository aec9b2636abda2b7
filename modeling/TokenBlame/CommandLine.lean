/-
# TokenBlame.CommandLine -- the commands and their arguments

There are four commands.  `generate` replays a history, `view` prints the blame of a
file, `serve` answers requests for it, and `map` prints which source commit each
destination commit has.

`Command.parse` reads the arguments: options with one or two dashes, their values behind
an equals sign or in the next argument, and the other arguments by position; behind `--`
every argument counts by position.  An option may be given once.  Some options are taken
from the environment when they are not given.

`Command.run` is what a command does to a workspace, what it prints and the code it ends
with: 0, or 1 after an error, or 2 if the arguments make no command.
-/
import TokenBlame.CommandLine.Help
import TokenBlame.Server
import TokenBlame.Workspace

set_option autoImplicit false

namespace TokenBlame.CommandLine

/-! ## Commands -/

/-- What `map` prints. -/
inductive MapQuery where
  /-- All destination commits with their source commits. -/
  | all
  /-- The destination commit of a source commit. -/
  | ofSource (id : String)
  /-- The source commit of a destination revision. -/
  | ofDestination (revision : String)
  deriving DecidableEq, Repr

/-- A command. -/
inductive Command where
  | generate (options : Options)
  | view (source destination path revision : String) (format : Page.Format) (engine : BlameEngine)
  | serve (source destination : String) (port : Nat) (engine : BlameEngine)
  | map (destination : String) (query : MapQuery)
  deriving DecidableEq, Repr

/-- Why arguments make no command. -/
inductive Refusal where
  | usage
  /-- Help was asked for, and this is it. -/
  | help (text : String)
  deriving DecidableEq, Repr

/-! ## Reading arguments -/

/-- An option: its long name, the letter it may be shortened to, and which values it takes. -/
structure OptionRule where
  long : String
  short : Option Char := none
  /-- The values that are accepted; nothing if the option takes no value. -/
  accepts : Option (String → Bool) := some fun _ => true

/-- The arguments of a command. -/
structure Rule where
  help : Help.Text
  /-- Which arguments are accepted at each position. -/
  positions : List (String → Bool)
  options : List OptionRule

/-- The arguments that were read. -/
structure Given where
  positions : List String := []
  options : List (String × String) := []
  deriving DecidableEq, Repr

namespace Given

/-- Add an argument by position. -/
def addPosition (given : Given) (rule : Rule) (text : String) : Except Refusal Given :=
  match rule.positions[given.positions.length]? with
  | some accepts =>
      if accepts text then .ok { given with positions := given.positions ++ [text] }
      else .error .usage
  | none => .error .usage

/-- Add an option with its value; an option without a value has the empty text. -/
def addOption (given : Given) (option : OptionRule) (value : String) : Except Refusal Given :=
  if (given.options.lookup option.long).isSome then .error .usage
  else if (option.accepts.getD fun _ => true) value then
    .ok { given with options := given.options ++ [(option.long, value)] }
  else .error .usage

/-- The value of an option. -/
def value? (given : Given) (long : String) : Option String :=
  given.options.lookup long

/-- Whether an option was given. -/
def has (given : Given) (long : String) : Bool :=
  (given.value? long).isSome

end Given

/-- What an argument with dashes says. -/
inductive Dashed where
  /-- Options that are complete. -/
  | complete (given : Given)
  /-- The option whose value is the next argument. -/
  | awaiting (given : Given) (option : OptionRule)

/-- The parts of a text before and behind its first equals sign. -/
def splitEquals (text : List Char) : List Char × Option (List Char) :=
  (text.takeWhile (· != '='),
    if text.contains '=' then some ((text.dropWhile (· != '=')).drop 1) else none)

/-- Read what stands behind two dashes. -/
def readLong (rule : Rule) (given : Given) (text : List Char) : Except Refusal Dashed :=
  let (name, value) := splitEquals text
  if name = "help".toList && value.isNone then .error (.help rule.help.full)
  else
    match rule.options.find? fun option => option.long.toList = name with
    | none => .error .usage
    | some option =>
        match option.accepts, value with
        | none, none => (given.addOption option "").map .complete
        | none, some _ => .error .usage
        | some _, none => .ok (.awaiting given option)
        | some _, some value => (given.addOption option (String.ofList value)).map .complete

/-- Read the letters behind one dash. -/
def readShort (rule : Rule) (given : Given) : List Char → Except Refusal Dashed
  | [] => .ok (.complete given)
  | letter :: rest =>
      if letter = 'h' then .error (.help rule.help.brief)
      else
        match rule.options.find? fun option => option.short == some letter with
        | none => .error .usage
        | some option =>
            match option.accepts, rest with
            | none, _ =>
                match given.addOption option "" with
                | .error refusal => .error refusal
                | .ok next => readShort rule next rest
            | some _, [] => .ok (.awaiting given option)
            | some _, '=' :: value =>
                (given.addOption option (String.ofList value)).map .complete
            | some _, value => (given.addOption option (String.ofList value)).map .complete

/-- Whether an argument begins with a dash and is not only a dash. -/
def isDashed (argument : String) : Bool :=
  argument.toList.head? = some '-' && argument != "-"

/-- Read an argument with dashes. -/
def readDashed (rule : Rule) (given : Given) (argument : String) : Except Refusal Dashed :=
  match argument.toList with
  | '-' :: '-' :: name => readLong rule given name
  | '-' :: letters => readShort rule given letters
  | _ => .error .usage

/-- Read arguments; `awaiting` is the option whose value comes next. -/
def read (rule : Rule) (given : Given) (awaiting : Option OptionRule) :
    List String → Except Refusal Given
  | [] => if awaiting.isSome then .error .usage else .ok given
  | argument :: rest =>
      match awaiting with
      | some option =>
          if isDashed argument then .error .usage
          else
            match given.addOption option argument with
            | .error refusal => .error refusal
            | .ok next => read rule next none rest
      | none =>
          if argument = "--" then rest.foldlM (fun given text => given.addPosition rule text) given
          else if isDashed argument then
            match readDashed rule given argument with
            | .error refusal => .error refusal
            | .ok (.complete next) => read rule next none rest
            | .ok (.awaiting next option) => read rule next (some option) rest
          else
            match given.addPosition rule argument with
            | .error refusal => .error refusal
            | .ok next => read rule next none rest

/-- Read all arguments of a command; every position has to be filled. -/
def readAll (rule : Rule) (arguments : List String) : Except Refusal Given :=
  match read rule {} none arguments with
  | .error refusal => .error refusal
  | .ok given =>
      if given.positions.length = rule.positions.length then .ok given else .error .usage

/-- The variables of the environment. -/
abbrev Environment := List (String × String)

/-! ## Values -/

/-- A path is not empty. -/
def isPath (text : String) : Bool := !text.isEmpty

/-- Any text. -/
def isText (_ : String) : Bool := true

/-- A number of commits or workers. -/
def count? (text : String) : Option Nat :=
  Numeral.unsigned? Numeral.maxWord64 text.toList

/-- The number of a port. -/
def port? (text : String) : Option Nat :=
  ((Numeral.signed64? text.toList).filter fun n => 0 ≤ n && n < 65536).map Int.toNat

/-- The forms a blame is printed in. -/
def format? : String → Option Page.Format
  | "html" => some .html
  | "json" => some .json
  | _ => none

/-- The engines by their names. -/
def engine? : String → Option BlameEngine
  | "libgit2" => some .hunks
  | "git" => some .porcelain
  | _ => none

/-- The value of an option, read by `read?`, or a default. -/
def valueOr {α : Type} (given : Given) (long : String) (read? : String → Option α)
    (fallback : α) : α :=
  ((given.value? long).bind read?).getD fallback

/-! ## The rules of the commands -/

/-- An option that takes no value. -/
def switch (long : String) (short : Option Char := none) : OptionRule :=
  { long, short, accepts := none }

/-- An option whose values can be read by `read?`. -/
def valued {α : Type} (long : String) (read? : String → Option α) (short : Option Char := none) :
    OptionRule :=
  { long, short, accepts := some fun text => (read? text).isSome }

/-- The arguments of `generate`. -/
def generateRule (environment : Environment) : Rule :=
  { help := Help.generate fun name => environment.lookup name
    positions := [isPath, isPath]
    options := [
      { long := "rev-start" }, { long := "rev-end" }, valued "limit" count?,
      switch "no-tokenize", switch "remove-comments",
      { long := "comment-service-url" }, { long := "comment-service-command" },
      valued "jobs" count? (some 'j'), { long := "error-log", accepts := some isPath }] }

/-- The arguments of `view`. -/
def viewRule : Rule :=
  { help := Help.view
    positions := [isPath, isPath, isText, isText]
    options := [valued "format" format?, valued "blame-engine" engine?] }

/-- The arguments of `serve`. -/
def serveRule : Rule :=
  { help := Help.serve
    positions := [isPath, isPath]
    options := [valued "port" port? (some 'p'), switch "open" (some 'o'),
      valued "blame-engine" engine?] }

/-- The arguments of `map`. -/
def mapRule : Rule :=
  { help := Help.map
    positions := [isPath]
    options := [{ long := "original" }, { long := "destination" }] }

/-! ## From arguments to commands -/

/-- An option, or else the variable that stands for it. -/
def orVariable (given : Given) (long : String) (environment : Environment) (name : String) :
    Option String :=
  (given.value? long).or (environment.lookup name)

/-- The command `generate`. -/
def readGenerate (given : Given) (environment : Environment) (source destination : String) :
    Except Refusal Command :=
  let url := orVariable given "comment-service-url" environment Help.urlVariable
  let command := (orVariable given "comment-service-command" environment
    Help.commandVariable).getD CommentService.defaultCommand
  let jobs := orVariable given "jobs" environment Help.jobsVariable
  let options : Options := {
    source, destination
    start := match given.value? "rev-start" with
      | some revision => .including revision
      | none => .root
    stop := (given.value? "rev-end").getD "HEAD"
    limit := (given.value? "limit").bind count?
    tokenize := !given.has "no-tokenize"
    removeComments := given.has "remove-comments"
    commentService := match url with
      | some url => .endpoint url
      | none => .spawn command
    errorLog := (given.value? "error-log").getD "errors.txt" }
  match jobs with
  | none => .ok (.generate options)
  | some text =>
      match count? text with
      | none => .error .usage
      | some workers => .ok (.generate { options with workers })

/-- The command `map`. -/
def readMap (given : Given) (destination : String) : Except Refusal Command :=
  match given.value? "original", given.value? "destination" with
  | some _, some _ => .error .usage
  | some id, none => .ok (.map destination (.ofSource id))
  | none, some revision => .ok (.map destination (.ofDestination revision))
  | none, none => .ok (.map destination .all)

/-- The engine that was asked for. -/
def engineOf (given : Given) : BlameEngine := valueOr given "blame-engine" engine? .hunks

/-- The help of a command. -/
def helpOf? (environment : Environment) : String → Option Help.Text
  | "generate" => some (Help.generate fun name => environment.lookup name)
  | "view" => some Help.view
  | "serve" => some Help.serve
  | "map" => some Help.map
  | "help" => some Help.help
  | _ => none

/-- What is answered to arguments that begin with no command. -/
def topRefusal (environment : Environment) (first : String) (rest : List String) : Refusal :=
  if first = "--help" then .help Help.program.full
  else if first.startsWith "-h" then .help Help.program.brief
  else if first = "help" then
    match rest with
    | [] => .help Help.program.full
    | [name] => ((helpOf? environment name).map fun text => Refusal.help text.full).getD .usage
    | _ => .usage
  else .usage

/-- The command that arguments make. -/
def Command.parse (environment : Environment) (arguments : List String) : Except Refusal Command :=
  match arguments with
  | "generate" :: rest => do
      let given ← readAll (generateRule environment) rest
      match given.positions with
      | [source, destination] => readGenerate given environment source destination
      | _ => .error .usage
  | "view" :: rest => do
      let given ← readAll viewRule rest
      match given.positions with
      | [source, destination, path, revision] =>
          .ok (.view source destination path revision (valueOr given "format" format? .html)
            (engineOf given))
      | _ => .error .usage
  | "serve" :: rest => do
      let given ← readAll serveRule rest
      match given.positions with
      | [source, destination] =>
          .ok (.serve source destination (valueOr given "port" port? 3001) (engineOf given))
      | _ => .error .usage
  | "map" :: rest => do
      let given ← readAll mapRule rest
      match given.positions with
      | [destination] => readMap given destination
      | _ => .error .usage
  | first :: rest => .error (topRefusal environment first rest)
  | [] => .error .usage

/-! ## Running -/

/-- What a command prints and the code it ends with. -/
structure Outcome where
  code : Nat
  output : String := ""
  errors : String := ""
  deriving DecidableEq, Repr

/-- The outcome of an error: its wording, and that of its cause. -/
def Outcome.ofError (error : Error) : Outcome :=
  { code := 1
    errors := "Error: " ++ error.message ++
      (match error.cause? with
        | some cause => "\n\nCaused by:\n    " ++ cause
        | none => "") ++ "\n" }

/-- The outcome of a text or an error. -/
def Outcome.ofResult : Except Error String → Outcome
  | .ok text => { code := 0, output := text }
  | .error error => .ofError error

/-- The outcome of arguments that make no command. -/
def Outcome.ofRefusal : Refusal → Outcome
  | .help text => { code := 0, output := text }
  | .usage => { code := 2, errors := "error: invalid usage\n\nFor more information, try '--help'.\n" }

/-- What a run prints when it is over. -/
def runReport (completed : Bool) : String :=
  if completed then "✓ Transcoded the whole range\n"
  else "✗ Stopped at the limit, run again to continue\n"

/-- What `view` prints. -/
def viewText (workspace : Workspace) (source destination path revision : String)
    (format : Page.Format) (engine : BlameEngine) : Except Error String := do
  let source ← workspace.source source
  let destination ← workspace.open? destination
  let file ← (Viewer.annotate { engine } source destination.repository revision path).1
  return Page.render format file ++ "\n"

/-- What `map` prints. -/
def mapText (workspace : Workspace) (destination : String) (query : MapQuery) :
    Except Error String := do
  let repository := (← workspace.open? destination).repository
  let mapping ← Destination.mapping repository
  match query with
  | .ofSource id => return (← mapping.destination id) ++ "\n"
  | .ofDestination revision =>
      return (← mapping.source (← repository.resolve revision).hex) ++ "\n"
  | .all =>
      let lines ← (← Destination.messages repository).mapM fun (id, _) =>
        (mapping.source id).map fun source => id ++ " " ++ source ++ "\n"
      return String.join lines

/-- What a server prints when it begins. -/
def banner (port : Nat) : String :=
  let url := "http://127.0.0.1:" ++ toString port
  "\n  UltraBlame server: " ++ url ++ "\n  Blame page:        " ++ url ++
    "/blame?path=<PATH>&rev=<REV>\n\n  Press Ctrl+C to stop\n\n"

/-- What a server prints when it is stopped. -/
def farewell : String := "\n  Shutting down...\n"

/-- A server from its beginning until it is stopped. -/
def serveOutcome (workspace : Workspace) (source destination : String) (port : Nat) : Outcome :=
  match workspace.source source, workspace.open? destination with
  | .error error, _ => .ofError error
  | _, .error error => .ofError error
  | .ok _, .ok _ =>
      if workspace.busyPorts.contains port then
        { code := 1
          errors := "✗ Failed to bind to port " ++ toString port ++
            ": Address already in use (os error 98)\n  Try a different port with --port <PORT>\n" }
      else { code := 0, output := banner port ++ farewell }

/-- What a command does. -/
def Command.run (workspace : Workspace) : Command → Outcome × Workspace
  | .generate options =>
      let (result, next) := workspace.generate options
      (.ofResult (result.map runReport), next)
  | .view source destination path revision format engine =>
      (.ofResult (viewText workspace source destination path revision format engine), workspace)
  | .serve source destination port _ => (serveOutcome workspace source destination port, workspace)
  | .map destination query => (.ofResult (mapText workspace destination query), workspace)

/-- The paths at which a command looks. -/
def Command.paths : Command → List String
  | .generate options => [options.source, options.destination, options.errorLog] ++
      (match options.commentService with
        | .spawn command => [command]
        | .endpoint _ => [])
  | .view source destination .. => [source, destination]
  | .serve source destination .. => [source, destination]
  | .map destination _ => [destination]

/-- The paths at which a command may leave something new. -/
def Command.written : Command → List String
  | .generate options => [options.destination, options.errorLog]
  | _ => []

/-- What arguments do. -/
def run (workspace : Workspace) (environment : Environment) (arguments : List String) :
    Outcome × Workspace :=
  match Command.parse environment arguments with
  | .error refusal => (.ofRefusal refusal, workspace)
  | .ok command => command.run workspace

end TokenBlame.CommandLine
