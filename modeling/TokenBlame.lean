import TokenBlame.Main
import TokenBlame.RecordedSource
import TokenBlame.Json.Parser
import TokenBlame.HandlePool
import TokenBlame.Proofs.Text.Utf8
import TokenBlame.Proofs.Token.Cut
import TokenBlame.Proofs.Text.Lines
import TokenBlame.Proofs.BackMap.Tokens
import TokenBlame.Proofs.Git.TreePath
import TokenBlame.Proofs.Disk.Removal
import TokenBlame.Proofs.Disk.Order
import TokenBlame.Proofs.Disk.Twin
import TokenBlame.Proofs.Disk.Beneath
import TokenBlame.Proofs.Disk.Extensional
import TokenBlame.Proofs.RelativePath
import TokenBlame.Proofs.Git.Chain
import TokenBlame.Proofs.Git.Revision
import TokenBlame.Proofs.Destination.Staging
import TokenBlame.Proofs.Destination.Sealing
import TokenBlame.Proofs.Destination.Replica
import TokenBlame.Proofs.Destination.Restoring
import TokenBlame.Proofs.Trailer
import TokenBlame.Proofs.Mining
import TokenBlame.Proofs.Mapping
import TokenBlame.Proofs.Transcode.Pending
import TokenBlame.Proofs.Transcode.Linear
import TokenBlame.Proofs.Transcode.Mirroring
import TokenBlame.Proofs.Transcode.Reached
import TokenBlame.Proofs.Transcode.Course
import TokenBlame.Proofs.Transcode.Resumed
import TokenBlame.Proofs.Viewer
import TokenBlame.Proofs.Destination.Core
import TokenBlame.Proofs.Git.Growth
import TokenBlame.Proofs.Transcode.Accounts
import TokenBlame.Proofs.Transcode.Recalled
import TokenBlame.Proofs.Ancestry
import TokenBlame.Proofs.Transcode.Branching
import TokenBlame.Proofs.Transcode.Bounded
import TokenBlame.Proofs.Transcode.Progress
import TokenBlame.Proofs.Transcode.Delta
import TokenBlame.Proofs.Transcode.Twins
import TokenBlame.Proofs.Checkout.Planning
import TokenBlame.Proofs.Checkout.Sight
import TokenBlame.Proofs.Checkout.Run
import TokenBlame.Proofs.Disk.Clearing
import TokenBlame.Proofs.Transcode.Isolated
import TokenBlame.Proofs.Transcode.Aborted
import TokenBlame.Proofs.Transcode.Interleaved
import TokenBlame.Proofs.Mapping.Inverse
import TokenBlame.Proofs.Git.Extension
import TokenBlame.Proofs.Transcode.Stored
import TokenBlame.Proofs.Transcode.Owned
import TokenBlame.Proofs.Viewer.Cache
import TokenBlame.Proofs.Disk.Edit
import TokenBlame.Proofs.Destination.Places
import TokenBlame.Proofs.Destination.Sheltered
import TokenBlame.Proofs.Destination.AnyOrder
import TokenBlame.Proofs.Destination.Untracked
import TokenBlame.Proofs.Destination.Vetted
import TokenBlame.Proofs.Destination.Indistinct
import TokenBlame.Proofs.Destination.Undone
import TokenBlame.Proofs.BackMap.Stripped
import TokenBlame.Proofs.BackMap.Indentation
import TokenBlame.Proofs.BackMap.WholeLines
import TokenBlame.Proofs.BackMap.Rebuilt
import TokenBlame.Proofs.BackMap.Occurrences
import TokenBlame.Proofs.Token.Extents
import TokenBlame.Proofs.Token.PerLine
import TokenBlame.Proofs.Blame.Tiling
import TokenBlame.Proofs.Token.Stored
import TokenBlame.Proofs.Blame.Engines
import TokenBlame.Proofs.Porcelain.Details
import TokenBlame.Proofs.Porcelain.RoundTrip
import TokenBlame.Proofs.Trailer.Leftmost
import TokenBlame.Proofs.Page
import TokenBlame.Proofs.HandlePool
import TokenBlame.Proofs.Transcode.Unaided
import TokenBlame.Proofs.Git.Difference
import TokenBlame.Proofs.Git.Touched
import TokenBlame.Proofs.Git.Emission
import TokenBlame.Proofs.Viewer.Commits
import TokenBlame.Proofs.Porcelain.Apart
import TokenBlame.Proofs.Mining.Crew
import TokenBlame.Proofs.Transcode.Mined
import TokenBlame.Proofs.Json.RoundTrip
import TokenBlame.Proofs.SourceCommit
