import Independence.Program.Signature
/-!
# Placeholder arguments

A callable is called as if from unknown code: each parameter and the receiver become fresh placeholders.
Only a simple parameter can stand for a placeholder, so all parameters are checked before the first one is
made.
-/

namespace Independence

/-- A parameter that is not a simple name: its position, its form and where to report it. -/
structure UnsupportedParameter where
  index : Nat
  pattern : ParameterPattern
  location : Location
deriving DecidableEq, Repr

namespace Signature

/-- Where a parameter stands: at its own span, or at the callable if its span is a dummy. -/
def locationOf (s : Signature) (p : Parameter) : Location :=
  if p.span.isDummy then s.location else ⟨s.location.file, p.span⟩

/-- The names of the parameters, counted from `index`, or the first parameter that is not simple. -/
def simpleNamesFrom (s : Signature) : Nat → List Parameter → Except UnsupportedParameter (List String)
  | _, [] => .ok []
  | index, p :: params =>
    match p.pattern with
    | .simple name => (s.simpleNamesFrom (index + 1) params).map (name :: ·)
    | pattern => .error ⟨index, pattern, s.locationOf p⟩

def simpleNames (s : Signature) : Except UnsupportedParameter (List String) :=
  s.simpleNamesFrom 0 s.params

end Signature

/-- The supply of placeholders, by the number made so far. -/
structure Placeholders where
  created : Nat
deriving DecidableEq, Repr

namespace Placeholders

def none : Placeholders := ⟨0⟩

/-- Placeholders for the named parameters, numbered from `first`. -/
def arguments (location : Location) (shape : Option Shape) : Nat → List String → List AbstractValue
  | _, [] => []
  | first, name :: names =>
    ⟨⟨first⟩, name, Shape.typeOf shape name, location⟩ :: arguments location shape (first + 1) names

/-- A call of `f` with one placeholder for each parameter and then one for the receiver. -/
def synthesize (p : Placeholders) (f : CallableId) (s : Signature) (shape : Option Shape) :
    Except UnsupportedParameter (Call × Placeholders) := do
  let names ← s.simpleNames
  let receiver := p.created + names.length
  return (⟨f, ⟨⟨receiver⟩, "this", Shape.receiverType shape, s.location⟩,
    arguments s.location shape p.created names, s.location⟩, ⟨receiver + 1⟩)

end Placeholders

end Independence
