import Independence.Heap.Store
import Independence.Program.Body
/-!
# Program models

A model is a small program over one source file: its functions, its heap, the objects that are rendered as
component roots, and the property names interned so far. Objects and functions are numbered in the order in
which they are made.
-/

namespace Independence

/-- Interned property names, numbered from 0 in the order in which they first occur. -/
structure Symbols where
  names : List String
deriving DecidableEq, Repr

namespace Symbols

def empty : Symbols := ⟨[]⟩

/-- The key of a name, a new one if the name was not interned yet. -/
def intern (s : Symbols) (name : String) : Key × Symbols :=
  match s.names.idxOf? name with
  | some i => (⟨i⟩, s)
  | none => (⟨s.names.length⟩, ⟨s.names ++ [name]⟩)

def name? (s : Symbols) (k : Key) : Option String := s.names[k.index]?

end Symbols

structure Function where
  signature : Signature
  body : Body
deriving Repr

structure Model where
  /-- The file that all locations of the model point into. -/
  file : String
  symbols : Symbols
  functions : List Function
  /-- The callable that renders each component root. -/
  roots : Std.ExtTreeMap ObjectId CallableId
  heap : Heap
  /-- The number of objects handed out, which is the next object's number. -/
  nextObject : Nat
  evaluations : Nat

namespace Model

def new (file : String) : Model := ⟨file, .empty, [], ∅, .empty, 0, 0⟩

def location (m : Model) (s : Span) : Location := ⟨m.file, s⟩

def intern (m : Model) (name : String) : Key × Model :=
  let (key, symbols) := m.symbols.intern name
  (key, { m with symbols })

def object (m : Model) : ObjectId × Model :=
  let o : ObjectId := ⟨m.nextObject⟩
  (o, { m with heap := m.heap.addObject o, nextObject := m.nextObject + 1 })

def set (m : Model) (b : Binding) (v : Value) : Model := { m with heap := m.heap.put b (some v) }

def get? (m : Model) (b : Binding) : Option Value := m.heap.get? b

def function? (m : Model) (f : CallableId) : Option Function := m.functions[f.index]?

/-- A new function. A function without a name has no parameters either. -/
def define (m : Model) (name : Option String) (params : List Parameter) (body : Body) : CallableId × Model :=
  let params := if name.isSome then params else []
  (⟨m.functions.length⟩,
    { m with functions := m.functions ++ [⟨⟨name, params, m.location .dummy⟩, body⟩] })

/-- Gives a function another body. A callable without definition is left so. -/
def setBody (m : Model) (f : CallableId) (body : Body) : Model :=
  { m with functions := m.functions.modify f.index fun fn => { fn with body } }

/-- Makes `o` a component root rendered by `f`. -/
def markRoot (m : Model) (o : ObjectId) (f : CallableId) : Model := { m with roots := m.roots.insert o f }

def signature? (m : Model) (f : CallableId) : Option Signature := (m.function? f).map (·.signature)

def compositeRoot? (m : Model) (o : ObjectId) : Option CallableId := m.roots[o]?

end Model

end Independence
