import Independence.Program.Model
import Independence.Proofs.Heap.Commit
/-!
# The objects that a program mentions

A body mentions objects as targets and inside values. A model is well formed if its bodies and its heap mention
only objects that were handed out already, so that an object allocated from now on is new to all of them.
-/

namespace Independence

section Mentions
variable (p : ObjectId → Prop)

/-- Every object that the value mentions satisfies `p`. -/
def Value.AllObjects : Value → Prop
  | .object o => p o
  | .abstract _ | .function _ | .primitive _ => True

/-- Every object that the completion mentions satisfies `p`. -/
def Completion.AllObjects : Completion → Prop
  | .normal v | .possiblyAbrupt v _ => v.AllObjects p
  | .abrupt _ => True

/-- Every object that the target names outright satisfies `p`. -/
def Target.AllObjects : Target → Prop
  | .object o => p o
  | .allocated _ => True

/-- Every object that the operation mentions satisfies `p`. -/
def Op.AllObjects : Op → Prop
  | .write target _ value _ => target.AllObjects p ∧ value.AllObjects p
  | .read target _ _ | .enumerate target _ => target.AllObjects p
  | .register value _ _ | .return value => value.AllObjects p
  | .allocate | .call _ _ | .assignGlobal _ _ | .throw _ | .mayThrow _ => True

/-- Every object that the body mentions satisfies `p`. -/
def Body.AllObjects : Body → Prop
  | .done => True
  | .op first rest => first.AllObjects p ∧ rest.AllObjects
  | .loop _ block rest => block.AllObjects ∧ rest.AllObjects
  | .ifEquals target _ value _ block rest =>
    target.AllObjects p ∧ value.AllObjects p ∧ block.AllObjects ∧ rest.AllObjects

end Mentions

section Mono
variable {p q : ObjectId → Prop} (hpq : ∀ o, p o → q o)
include hpq

theorem Value.AllObjects.mono {v : Value} (h : v.AllObjects p) : v.AllObjects q := by
  cases v with
  | object o => exact hpq o h
  | _ => trivial

theorem Completion.AllObjects.mono {c : Completion} (h : c.AllObjects p) : c.AllObjects q := by
  cases c with
  | normal v => exact Value.AllObjects.mono hpq h
  | abrupt a => trivial
  | possiblyAbrupt v a => exact Value.AllObjects.mono hpq h

theorem Target.AllObjects.mono {t : Target} (h : t.AllObjects p) : t.AllObjects q := by
  cases t with
  | object o => exact hpq o h
  | allocated n => trivial

theorem Op.AllObjects.mono {op : Op} (h : op.AllObjects p) : op.AllObjects q := by
  cases op with
  | write t k v s => exact ⟨h.1.mono hpq, h.2.mono hpq⟩
  | read t k s => exact Target.AllObjects.mono hpq h
  | enumerate t s => exact Target.AllObjects.mono hpq h
  | register v shape s => exact Value.AllObjects.mono hpq h
  | «return» v => exact Value.AllObjects.mono hpq h
  | _ => trivial

theorem Body.AllObjects.mono {b : Body} (h : b.AllObjects p) : b.AllObjects q := by
  induction b with
  | done => trivial
  | op first rest ih => exact ⟨h.1.mono hpq, ih h.2⟩
  | loop times block rest ihb ihr => exact ⟨ihb h.1, ihr h.2⟩
  | ifEquals t k v s block rest ihb ihr => exact ⟨h.1.mono hpq, h.2.1.mono hpq, ihb h.2.2.1, ihr h.2.2.2⟩

end Mono

/-- A body satisfies what every object satisfies. -/
theorem Body.allObjects_of_forall {p : ObjectId → Prop} (hp : ∀ o, p o) (b : Body) : b.AllObjects p := by
  have hv : ∀ v : Value, v.AllObjects p := fun v => by cases v <;> first | exact hp _ | trivial
  have ht : ∀ t : Target, t.AllObjects p := fun t => by cases t <;> first | exact hp _ | trivial
  have ho : ∀ op : Op, op.AllObjects p := fun op => by
    cases op <;> first | exact ⟨ht _, hv _⟩ | exact ht _ | exact hv _ | trivial
  induction b with
  | done => trivial
  | op first rest ih => exact ⟨ho first, ih⟩
  | loop times block rest ihb ihr => exact ⟨ihb, ihr⟩
  | ifEquals t k v s block rest ihb ihr => exact ⟨ht t, hv v, ihb, ihr⟩

namespace Model

/-- The object was handed out by the model. -/
def HandedOut (m : Model) (o : ObjectId) : Prop := o.index < m.nextObject

/-- The bodies and the heap mention only objects that were handed out. -/
structure WellFormed (m : Model) : Prop where
  bodies : ∀ f ∈ m.functions, f.body.AllObjects m.HandedOut
  known : ∀ o, m.heap.knows o = true → m.HandedOut o
  values : ∀ b v, m.get? b = some v → v.AllObjects m.HandedOut

/-- A program with one object. The first function writes to it and registers the second one, which looks at what was
written. The third one has nothing to do with the others. -/
def sample : Model :=
  let place (line : Nat) : Span := .ofLine line
  let signature (name : String) : Signature := ⟨some name, [], ⟨"sample", .dummy⟩⟩
  let outer : Body := .op (.write (.object ⟨0⟩) ⟨0⟩ (.primitive (.bool true)) (place 1)) <| .op .allocate <|
    .op (.write (.allocated 0) ⟨0⟩ (.object ⟨0⟩) (place 2)) <| .op (.register (.function ⟨1⟩) none (place 3)) .done
  let inner : Body := .ifEquals (.object ⟨0⟩) ⟨0⟩ (.primitive (.bool true)) (place 4)
    (.op .allocate <| .op (.write (.allocated 0) ⟨1⟩ (.primitive .null) (place 5)) .done) .done
  let other : Body := .op (.read (.object ⟨0⟩) ⟨2⟩ (place 6)) <|
    .op (.write (.object ⟨0⟩) ⟨3⟩ (.primitive .null) (place 7)) .done
  { Model.new "sample" with
    functions := [⟨signature "outer", outer⟩, ⟨signature "inner", inner⟩, ⟨signature "other", other⟩]
    heap := Heap.empty.addObject ⟨0⟩
    nextObject := 1 }

/-- A program with one object. The first function writes to it, calls the second one twice, and looks at what was written
then. The second one changes the object in its first call only, by way of what it finds there. The third one calls a
function that throws. -/
def calling : Model :=
  let place (line : Nat) : Span := .ofLine line
  let function (name : String) (body : Body) : Function := ⟨⟨some name, [], ⟨"sample", .dummy⟩⟩, body⟩
  let outer : Body := .op (.write (.object ⟨0⟩) ⟨0⟩ (.primitive (.bool true)) (place 1)) <|
    .loop 2 (.op (.call ⟨1⟩ (place 2)) .done) <|
    .ifEquals (.object ⟨0⟩) ⟨0⟩ (.primitive .null) (place 3)
      (.op (.mayThrow (place 4)) <| .op (.return (.primitive (.bool true))) .done) <|
    .op (.throw (place 5)) .done
  let inner : Body := .ifEquals (.object ⟨0⟩) ⟨0⟩ (.primitive (.bool true)) (place 6)
    (.op .allocate <| .op (.write (.allocated 0) ⟨1⟩ (.primitive .null) (place 7)) <|
      .op (.write (.object ⟨0⟩) ⟨0⟩ (.primitive .null) (place 8)) <| .op (.return (.primitive (.bool false))) .done) <|
    .op (.enumerate (.object ⟨0⟩) (place 9)) .done
  let throwing : Body := .op (.call ⟨3⟩ (place 10)) <| .op (.read (.object ⟨0⟩) ⟨0⟩ (place 11)) .done
  { Model.new "sample" with
    functions := [function "outer" outer, function "inner" inner, function "throwing" throwing,
      function "thrower" (.loop 3 (.op (.throw (place 12)) .done) .done)]
    heap := Heap.empty.addObject ⟨0⟩
    nextObject := 1 }

/-- A call of a function without parameters. -/
def callOf (m : Model) (f : CallableId) : Call :=
  ⟨f, ⟨⟨0⟩, "this", .object, m.location .dummy⟩, [], m.location .dummy⟩

/-- A program whose heap is one object without properties is well formed if its bodies are. -/
theorem wellFormed_of_one_object {m : Model} (hheap : m.heap = Heap.empty.addObject ⟨0⟩) (hnext : m.nextObject = 1)
    (hbodies : ∀ f ∈ m.functions, f.body.AllObjects m.HandedOut) : m.WellFormed where
  bodies := hbodies
  known o ho := by
    have ho : (⟨0⟩ : ObjectId) = o := by simpa [hheap, Heap.knows, Heap.addObject, Heap.empty] using ho
    rw [← ho, HandedOut, hnext]
    exact Nat.zero_lt_one
  values b v hv := by
    have hempty : Heap.empty.get? b = none := by simp [Heap.get?, Heap.empty]
    simp [hheap, Model.get?, Heap.get?_addObject, hempty] at hv

theorem wellFormed_sample : sample.WellFormed :=
  wellFormed_of_one_object rfl rfl <| by
    simp [sample, Body.AllObjects, Op.AllObjects, Target.AllObjects, Value.AllObjects, HandedOut]

/-- Objects that were not handed out have no properties. -/
theorem WellFormed.get?_eq_none {m : Model} (hm : m.WellFormed) {b : Binding} (hb : ¬ m.HandedOut b.object) :
    m.get? b = none := by
  have hk : m.heap.knows b.object = false := by
    rw [Bool.eq_false_iff]
    exact fun h => hb (hm.known _ h)
  exact Heap.get?_of_not_knows hk

end Model

end Independence
