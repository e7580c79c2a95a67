import Independence.Program.Signature
/-!
# Function bodies

A body is a sequence of operations that touch the heap directly. Two operations hold a block of their own:
a loop that runs its block a fixed number of times, and a branch on the current value of a binding.
-/

namespace Independence

inductive Target where
  | object (o : ObjectId)
  /-- The object that the running function allocated as its `n`-th, counted from 0. -/
  | allocated (n : Nat)
deriving DecidableEq, Repr

/-- One operation without a block. -/
inductive Op where
  | write (target : Target) (key : Key) (value : Value) (span : Span)
  | read (target : Target) (key : Key) (span : Span)
  | enumerate (target : Target) (span : Span)
  | allocate
  | call (callee : CallableId) (span : Span)
  /-- Ask to have a value analysed. -/
  | register (target : Value) (shape : Option Shape) (span : Span)
  | assignGlobal (name : String) (span : Span)
  | throw (span : Span)
  | mayThrow (span : Span)
  | return (value : Value)
deriving Repr

/-- A sequence of operations. -/
inductive Body where
  | done
  | op (first : Op) (rest : Body)
  /-- Run `block` as often as `times` says. -/
  | loop (times : Nat) (block rest : Body)
  /-- Read a property and run `block` if it holds `value` now. -/
  | ifEquals (target : Target) (key : Key) (value : Value) (span : Span) (block rest : Body)
deriving Repr

instance : Inhabited Body := ⟨.done⟩

end Independence
