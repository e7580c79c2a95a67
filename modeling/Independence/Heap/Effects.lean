import Independence.Heap.Value
/-!
# Effects of an evaluation

The effects of an evaluation are how it ended, the objects it created and the last write to each binding.
They are recorded without being applied.
-/

namespace Independence

/-- The last write to a binding. A write without a value deletes the property. -/
structure WriteSite where
  location : Option Location
  value : Option Value
deriving Repr

/-- Objects in ascending order. -/
abbrev ObjectSet := Std.ExtTreeSet ObjectId

/-- Written bindings in ascending order. -/
abbrev WriteSet := Std.ExtTreeMap Binding WriteSite

/-- Everything one evaluation did to the heap. -/
structure Effects where
  result : Completion
  created : ObjectSet
  writes : WriteSet

namespace Effects

/-- The effects of an evaluation that touched nothing and returned `v`. -/
def pure (v : Value) : Effects := ⟨.normal v, ∅, ∅⟩

/-- Effects put together by hand: of several writes to one binding the last counts. -/
def ofLists (result : Completion) (created : List ObjectId) (writes : List (Binding × WriteSite)) : Effects :=
  ⟨result, .ofList created, .ofList writes⟩

def writesBinding (e : Effects) (b : Binding) : Bool := e.writes.contains b

def writtenObjects (e : Effects) : ObjectSet := .ofList (e.writes.keys.map Binding.object)

def writesObject (e : Effects) (o : ObjectId) : Bool := e.writtenObjects.contains o

end Effects

end Independence
