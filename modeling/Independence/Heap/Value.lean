import Independence.Source.Span
import Independence.Heap.Ident
import Independence.Text.Quoted
import Independence.Decimal.Shortest
/-!
# Values and completions

The values that properties hold and evaluations return, and the ways an evaluation can end. Values are
compared structurally with `==`; numbers compare as floats do, so that no value holding a NaN equals itself.
-/

namespace Independence

/-- A value without identity. -/
inductive Primitive where
  | undefined
  | null
  | bool (b : Bool)
  | number (x : Float)
  | string (s : String)
deriving BEq, Repr

/-- What is known about a placeholder. -/
inductive AbstractType where
  | unknown
  | object
  | function
  | number
  | string
  | boolean
deriving DecidableEq, Repr

/-- A placeholder for an unknown input: the parameter it stands for and where its callable is defined. -/
structure AbstractValue where
  id : AbstractId
  name : String
  type : AbstractType
  location : Location
deriving DecidableEq, Repr

inductive Value where
  | object (o : ObjectId)
  | abstract (a : AbstractValue)
  | function (f : CallableId)
  | primitive (p : Primitive)
deriving BEq, Repr

namespace Primitive

def text : Primitive → String
  | undefined => "undefined"
  | null => "null"
  | bool b => if b then "true" else "false"
  | number x => Decimal.floatText x
  | string s => Text.quoted s

end Primitive

namespace AbstractType

def text : AbstractType → String
  | unknown => "unknown"
  | object => "object"
  | function => "function"
  | number => "number"
  | string => "string"
  | boolean => "boolean"

end AbstractType

namespace Value

def undefined : Value := .primitive .undefined

instance : Inhabited Value := ⟨undefined⟩

def kind : Value → String
  | object _ => "object"
  | abstract _ => "abstract value"
  | function _ => "function"
  | primitive _ => "primitive value"

def text : Value → String
  | object o => o.text
  | abstract a => s!"<{a.name}: {a.type.text}>"
  | function f => f.text
  | primitive p => p.text

end Value

/-- Where an evaluation threw, if that is known. -/
structure Abrupt where
  location : Option Location
deriving DecidableEq, Repr

/-- What an abrupt completion does, as messages say it. -/
def Abrupt.verb (_ : Abrupt) : String := "throws"

inductive Completion where
  | normal (v : Value)
  | abrupt (a : Abrupt)
  /-- It returns on some paths and throws on others. -/
  | possiblyAbrupt (v : Value) (a : Abrupt)
deriving Repr

namespace Completion

def isDefinitelyAbrupt : Completion → Bool
  | abrupt _ => true
  | normal _ | possiblyAbrupt _ _ => false

end Completion

end Independence
