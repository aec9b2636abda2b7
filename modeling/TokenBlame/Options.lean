/-
# TokenBlame.Options -- what a run is told

The options of a run name the two repositories, the range, how files are transformed
and where failures are recorded.  Everything but the two repositories has a default.
-/
import TokenBlame.Transcode

set_option autoImplicit false

namespace TokenBlame

/-- The options of a run. -/
structure Options where
  source : String
  destination : String
  start : RangeStart := .root
  stop : String := "HEAD"
  /-- The greatest number of commits to replay in this run. -/
  limit : Option Nat := none
  tokenize : Bool := true
  removeComments : Bool := false
  commentService : CommentService.Config := .spawn CommentService.defaultCommand
  /-- How many commits or files are worked on at the same time. -/
  workers : Nat := 4
  errorLog : String := "errors.txt"
  identity : Destination.Identity := {}
  deriving DecidableEq, Repr

namespace Options

/-- The handles that are opened on the source: at least one. -/
def handles (options : Options) : Nat := max options.workers 1

/-- What a run is asked to do, given how to come by a comment service. -/
def settings (options : Options)
    (service : CommentService.Config → Except Error CommentService) : Transcode.Settings :=
  { start := options.start
    stop := options.stop
    limit := options.limit
    tokenize := options.tokenize
    comments := if options.removeComments then some (service options.commentService) else none
    identity := options.identity }

end Options

end TokenBlame
