/-
# TokenBlame.Mining -- what is known of many commits

Commits are mined in chunks, which may be worked on at the same time and may finish in
any order.  `gather` puts the results of the chunks together: all of them in the order
of the chunks, or the failure of the chunk that was the first to fail.
-/
import TokenBlame.RevisionSource
import TokenBlame.Text.Pieces

set_option autoImplicit false

namespace TokenBlame.Mining

/-- The number of commits of a chunk. -/
def chunkSize : Nat := 256

/-- What is known of the commits of one chunk. -/
def chunk (source : RevisionSource) (ids : List String) : Except Error (List SourceCommit) :=
  ids.mapM source.metadata

/-- The failure of a result. -/
def failure? {α : Type} : Except Error α → Option Error
  | .error e => some e
  | .ok _ => none

/-- The results of all chunks, given the order in which the chunks finished. -/
def gather {α : Type} (finished : List Nat) (results : List (Except Error (List α))) :
    Except Error (List α) :=
  match finished.findSome? fun i => results[i]?.bind failure? with
  | some e => .error e
  | none => .ok (results.flatMap fun result => (result.toOption).getD [])

/-- What is known of the commits, in order, when the chunks finish in the given order. -/
def mineInOrder (finished : List Nat) (source : RevisionSource) (ids : List String) :
    Except Error (List SourceCommit) :=
  gather finished ((Pieces.chunksOf chunkSize ids).map (chunk source))

/-- What is known of the commits, in order. -/
def mine (source : RevisionSource) (ids : List String) : Except Error (List SourceCommit) :=
  mineInOrder (List.range (Pieces.chunksOf chunkSize ids).length) source ids

end TokenBlame.Mining
