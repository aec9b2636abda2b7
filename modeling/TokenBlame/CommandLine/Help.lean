/-
# TokenBlame.CommandLine.Help -- what the commands say of themselves

Every command has a brief and a full help text.  They differ where an option has values
that are explained one by one.  Some options can be given by variables of the environment;
the text of such an option shows the value that its variable has.
-/

set_option autoImplicit false

namespace TokenBlame.CommandLine.Help

/-- The brief and the full text. -/
structure Text where
  brief : String
  full : String
  deriving DecidableEq, Repr

/-- A text without an expanded form. -/
def Text.plain (text : String) : Text := ⟨text, text⟩

/-! ## Variables -/

/-- The address of a comment service. -/
def urlVariable : String := "ULTRABLAME_COMMENT_SERVICE_URL"

/-- The command that starts a comment service. -/
def commandVariable : String := "ULTRABLAME_COMMENT_SERVICE_COMMAND"

/-- The number of workers. -/
def jobsVariable : String := "ULTRABLAME_JOBS"

/-- The variables that stand for options. -/
def variableNames : List String := [urlVariable, commandVariable, jobsVariable]

/-! ## Texts -/

/-- The program. -/
def program : Text := .plain "Token-level blame for git repositories

Usage: ultrablame <COMMAND>

Commands:
  generate  Transcode the history of SOURCE into DESTINATION
  view      Print the blame of an original file reconstructed from DESTINATION
  serve     Serve reconstructed blame over HTTP
  map       Print the destination to original commit mapping
  help      Print this message or the help of the given subcommand(s)

Options:
  -h, --help  Print help
"

/-- The command `help`. -/
def help : Text := .plain "Print this message or the help of the given subcommand(s)

Usage: ultrablame help [COMMAND]...

Arguments:
  [COMMAND]...  Print help for the subcommand(s)
"

/-- A variable that stands for an option, with its value as `value?` tells it.  Lines
behind the first are indented like it. -/
def shownVariable (value? : String → Option String) (name : String) : String :=
  "[env: " ++ name ++ "=" ++
    String.join (((value? name).getD "").toList.map fun c =>
      if c = '\n' then "\n          " else c.toString) ++ "]"

/-- The command `generate`, given the values of the variables. -/
def generate (value? : String → Option String) : Text := .plain ("Transcode the history of SOURCE into DESTINATION

Usage: ultrablame generate [OPTIONS] <SOURCE> <DESTINATION>

Arguments:
  <SOURCE>       \n  <DESTINATION>  \n
Options:
      --rev-start <REV_START>
          First original revision to transcode (inclusive)
      --rev-end <REV_END>
          Last original revision to transcode [default: HEAD]
      --limit <LIMIT>
          Maximum number of commits to transcode in this run
      --no-tokenize
          Copy files as they are instead of one token per line
      --remove-comments
          Strip comments through the comment service before tokenizing
      --comment-service-url <COMMENT_SERVICE_URL>
          Use an already running comment service " ++ shownVariable value? urlVariable ++ "
      --comment-service-command <COMMENT_SERVICE_COMMAND>
          Command started as the comment service " ++ shownVariable value? commandVariable ++ " [default: rust-code-analysis-web]
  -j, --jobs <JOBS>
          Number of worker threads (defaults to the number of CPUs) " ++ shownVariable value? jobsVariable ++ "
      --error-log <ERROR_LOG>
          File receiving the commits that failed to transcode [default: errors.txt]
  -h, --help
          Print help
")

/-- The command `view`. -/
def view : Text where
  brief := "Print the blame of an original file reconstructed from DESTINATION

Usage: ultrablame view [OPTIONS] <SOURCE> <DESTINATION> <PATH> <REV>

Arguments:
  <SOURCE>       \n  <DESTINATION>  \n  <PATH>         File path, relative to the repository root
  <REV>          Destination revision

Options:
      --format <FORMAT>              [default: html] [possible values: html, json]
      --blame-engine <BLAME_ENGINE>  [default: libgit2] [possible values: libgit2, git]
  -h, --help                         Print help (see more with '--help')
"
  full := "Print the blame of an original file reconstructed from DESTINATION

Usage: ultrablame view [OPTIONS] <SOURCE> <DESTINATION> <PATH> <REV>

Arguments:
  <SOURCE>
          \n
  <DESTINATION>
          \n
  <PATH>
          File path, relative to the repository root

  <REV>
          Destination revision

Options:
      --format <FORMAT>
          [default: html]
          [possible values: html, json]

      --blame-engine <BLAME_ENGINE>
          Possible values:
          - libgit2: Compute blame in-process with libgit2
          - git:     Run \x60git blame --porcelain\x60 in the destination repository
          \n          [default: libgit2]

  -h, --help
          Print help (see a summary with '-h')
"

/-- The command `serve`. -/
def serve : Text where
  brief := "Serve reconstructed blame over HTTP

Usage: ultrablame serve [OPTIONS] <SOURCE> <DESTINATION>

Arguments:
  <SOURCE>       \n  <DESTINATION>  \n
Options:
  -p, --port <PORT>                  Port to run the server on [default: 3001]
  -o, --open                         Open browser automatically after starting
      --blame-engine <BLAME_ENGINE>  [default: libgit2] [possible values: libgit2, git]
  -h, --help                         Print help (see more with '--help')
"
  full := "Serve reconstructed blame over HTTP

Usage: ultrablame serve [OPTIONS] <SOURCE> <DESTINATION>

Arguments:
  <SOURCE>
          \n
  <DESTINATION>
          \n
Options:
  -p, --port <PORT>
          Port to run the server on
          \n          [default: 3001]

  -o, --open
          Open browser automatically after starting

      --blame-engine <BLAME_ENGINE>
          Possible values:
          - libgit2: Compute blame in-process with libgit2
          - git:     Run \x60git blame --porcelain\x60 in the destination repository
          \n          [default: libgit2]

  -h, --help
          Print help (see a summary with '-h')
"

/-- The command `map`. -/
def map : Text := .plain "Print the destination to original commit mapping

Usage: ultrablame map [OPTIONS] <DESTINATION>

Arguments:
  <DESTINATION>  \n
Options:
      --original <ORIGINAL>           Print the destination commit of this original commit
      --destination <destination_id>  Print the original commit of this destination commit
  -h, --help                          Print help
"

end TokenBlame.CommandLine.Help
