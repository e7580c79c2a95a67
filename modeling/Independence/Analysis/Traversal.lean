import Independence.Heap.Ident
import Independence.Program.Signature
/-!
# The traversal of nested candidates

A frame is open for each candidate in progress. Entering a frame sets aside the requests that are pending, so
that a candidate sees only what it registers itself; leaving it puts them back in front of what is left over.
-/

namespace Independence

structure Frame where
  candidate : CallableId
  /-- The baseline under which its effects are committed, once they are. -/
  baseline : Option BaselineId
  /-- The requests that were pending when it was entered. -/
  saved : List Request

structure Traversal where
  frames : List Frame
  /-- The requests registered and not taken yet, in order. -/
  pending : List Request
  commits : Nat

namespace Traversal

def empty : Traversal := ⟨[], [], 0⟩

def depth (t : Traversal) : Nat := t.frames.length

def isUnwound (t : Traversal) : Bool := t.frames.isEmpty

def candidates (t : Traversal) : List CallableId := t.frames.map Frame.candidate

def current? (t : Traversal) : Option CallableId := t.candidates.head?

/-- The innermost frame whose effects are committed. -/
def committed? (t : Traversal) : Option Frame := t.frames.find? (·.baseline.isSome)

def parent? (t : Traversal) : Option CallableId := t.committed?.map Frame.candidate

def baseline (t : Traversal) : BaselineId := (t.committed?.bind Frame.baseline).getD .global

def register (t : Traversal) (r : Request) : Traversal := { t with pending := t.pending ++ [r] }

/-- Opens a frame and sets the pending requests aside. -/
def enter (t : Traversal) (f : CallableId) : Traversal :=
  { t with frames := ⟨f, none, t.pending⟩ :: t.frames, pending := [] }

/-- Closes the innermost frame and puts the requests set aside before those left over. -/
def leave (t : Traversal) : Traversal :=
  match t.frames with
  | [] => t
  | frame :: frames => { t with frames, pending := frame.saved ++ t.pending }

def takePending (t : Traversal) : List Request × Traversal := (t.pending, { t with pending := [] })

/-- Marks the innermost frame as committed under a fresh baseline. -/
def commit (t : Traversal) : BaselineId × Traversal :=
  let baseline : BaselineId := ⟨t.commits + 1⟩
  let frames := match t.frames with
    | [] => []
    | frame :: frames => { frame with baseline := some baseline } :: frames
  (baseline, { t with frames, commits := t.commits + 1 })

end Traversal

end Independence
