import Independence.Heap.Value
/-!
# Signatures, requests and calls

What is known about a callable from outside, what somebody asks to have analysed, and the call that is
evaluated in the end.
-/

namespace Independence

inductive ParameterPattern where
  | simple (name : String)
  | object
  | array
  | rest (name : String)
  | withDefault (name : String)
deriving DecidableEq, Repr

namespace ParameterPattern

def describe : ParameterPattern → String
  | simple _ => "identifier"
  | object => "object destructuring pattern"
  | array => "array destructuring pattern"
  | rest _ => "rest parameter"
  | withDefault _ => "parameter with default value"

/-- The one name that the pattern binds, if it binds one as a whole. -/
def name? : ParameterPattern → Option String
  | simple name | rest name | withDefault name => some name
  | object | array => none

end ParameterPattern

structure Parameter where
  pattern : ParameterPattern
  span : Span
deriving DecidableEq, Repr

/-- What is known about a callable: its own name, its parameters and where it is defined. -/
structure Signature where
  name : Option String
  params : List Parameter
  location : Location
deriving DecidableEq, Repr

/-- Types hinted for the inputs of a callable, by parameter name. -/
structure Shape where
  params : List (String × AbstractType)
  receiver : Option AbstractType
deriving DecidableEq, Repr

namespace Shape

/-- The type of a parameter, unknown if there is no hint. -/
def typeOf (shape : Option Shape) (name : String) : AbstractType :=
  (shape.bind (·.params.lookup name)).getD .unknown

/-- The type of the receiver, an object if there is no hint. -/
def receiverType (shape : Option Shape) : AbstractType :=
  (shape.bind Shape.receiver).getD .object

end Shape

/-- A value that somebody asked to have analysed, before it is checked. -/
structure Request where
  target : Value
  shape : Option Shape
  /-- Settings that are carried along unread. -/
  config : Option (List (String × String))
  location : Option Location
deriving Repr

namespace Request

def ofValue (target : Value) : Request := ⟨target, none, none, none⟩

def ofCallable (f : CallableId) : Request := ofValue (.function f)

end Request

/-- A call with placeholders for the receiver and the arguments. -/
structure Call where
  callee : CallableId
  receiver : AbstractValue
  args : List AbstractValue
  location : Location
deriving DecidableEq, Repr

end Independence
