import Std.Data.ExtTreeMap
import Std.Data.ExtTreeSet
/-!
# Identities

Objects, callables, placeholders, committed baselines and property keys are known by number only. A binding
is a property of an object; bindings are ordered by object, then key. Each order is lawful, so that sets and
maps over identities are equal when they have the same members.
-/

namespace Independence

structure ObjectId where
  index : Nat
deriving DecidableEq, Repr

/-- Identity of a callable, and of the candidate that wraps it. -/
structure CallableId where
  index : Nat
deriving DecidableEq, Repr

/-- Identity of a placeholder that stands for an unknown value. -/
structure AbstractId where
  index : Nat
deriving DecidableEq, Repr

/-- Identity of a committed baseline. Number 0 is the untouched global state. -/
structure BaselineId where
  index : Nat
deriving DecidableEq, Repr

/-- An interned property name. -/
structure Key where
  index : Nat
deriving DecidableEq, Repr

/-- A property of an object, the unit of a write-set. -/
structure Binding where
  object : ObjectId
  key : Key
deriving DecidableEq, Repr

namespace ObjectId

instance : Inhabited ObjectId := ⟨⟨0⟩⟩

instance : Ord ObjectId := ⟨compareOn index⟩

instance : Std.TransOrd ObjectId := inferInstanceAs (Std.TransCmp (compareOn index))

instance : Std.LawfulEqOrd ObjectId where
  eq_of_compare {a b} h := by
    have h : compare a.index b.index = .eq := h
    cases a; cases b; simp_all

def text (o : ObjectId) : String := s!"obj{o.index}"

def detail (o : ObjectId) : String := s!"ObjectId({o.index})"

end ObjectId

namespace CallableId

instance : Inhabited CallableId := ⟨⟨0⟩⟩

instance : Ord CallableId := ⟨compareOn index⟩

instance : Std.TransOrd CallableId := inferInstanceAs (Std.TransCmp (compareOn index))

instance : Std.LawfulEqOrd CallableId where
  eq_of_compare {a b} h := by
    have h : compare a.index b.index = .eq := h
    cases a; cases b; simp_all

def text (f : CallableId) : String := s!"fn{f.index}"

def detail (f : CallableId) : String := s!"CallableId({f.index})"

end CallableId

namespace AbstractId

def detail (a : AbstractId) : String := s!"AbstractId({a.index})"

end AbstractId

namespace BaselineId

/-- The baseline to which nothing is committed. -/
def global : BaselineId := ⟨0⟩

def isGlobal (b : BaselineId) : Bool := b == global

def text (b : BaselineId) : String :=
  if b.isGlobal then "global" else s!"commit#{b.index}"

def detail (b : BaselineId) : String := s!"BaselineId({b.index})"

end BaselineId

namespace Key

instance : Ord Key := ⟨compareOn index⟩

instance : Std.TransOrd Key := inferInstanceAs (Std.TransCmp (compareOn index))

instance : Std.LawfulEqOrd Key where
  eq_of_compare {a b} h := by
    have h : compare a.index b.index = .eq := h
    cases a; cases b; simp_all

end Key

namespace Binding

instance : Ord Binding := ⟨compareLex (compareOn object) (compareOn key)⟩

instance : Std.TransOrd Binding :=
  inferInstanceAs (Std.TransCmp (compareLex (compareOn object) (compareOn key)))

instance : Std.LawfulEqOrd Binding where
  eq_of_compare {a b} h := by
    have h : (compare a.object b.object).then (compare a.key b.key) = .eq := h
    rw [Ordering.then_eq_eq] at h
    have ho := Std.LawfulEqCmp.eq_of_compare h.1
    have hk := Std.LawfulEqCmp.eq_of_compare h.2
    cases a; cases b; simp_all

end Binding

end Independence
