/-
# TokenBlame.HandlePool -- handles shared by several clients

A pool lends its handles one at a time.  The handle that came back last is lent
first.  `lent` records the loans in the order they were made, each open or closed, so
that the handles that are free and those that are out are always the handles the pool
began with.
-/
import TokenBlame.Error

set_option autoImplicit false

namespace TokenBlame

universe u

/-- A pool of handles. -/
structure HandlePool (α : Type u) where
  /-- Free handles, the one lent next first. -/
  free : List α
  /-- Loans in order, a closed one being `none`. -/
  lent : List (Option α)
  /-- The number of handles at the beginning. -/
  size : Nat
  deriving DecidableEq, Repr

namespace HandlePool

variable {α : Type u}

/-- What an attempt to borrow a handle leads to. -/
inductive Answer (α : Type u) where
  /-- The handle that was lent. -/
  | handle (value : α)
  /-- Every handle is out, so the client waits. -/
  | wait
  /-- The pool never had a handle. -/
  | refused (error : Error)
  deriving DecidableEq, Repr

/-- A pool of the given handles, the last one lent first. -/
def ofHandles (handles : List α) : HandlePool α :=
  ⟨handles.reverse, [], handles.length⟩

/-- Borrow a handle. -/
def acquire (pool : HandlePool α) : Answer α × HandlePool α :=
  if pool.size = 0 then (.refused (.internal "Source pool is empty"), pool)
  else
    match pool.free with
    | [] => (.wait, pool)
    | handle :: free => (.handle handle, { pool with free, lent := pool.lent ++ [some handle] })

/-- Give back the handle of loan `n`; false if that loan is not open. -/
def release (pool : HandlePool α) (n : Nat) : Bool × HandlePool α :=
  match pool.lent[n]?.join with
  | none => (false, pool)
  | some handle =>
      (true, { pool with free := handle :: pool.free, lent := pool.lent.set n none })

/-- The handles that are out. -/
def out (pool : HandlePool α) : List α :=
  pool.lent.filterMap id

end HandlePool

end TokenBlame
