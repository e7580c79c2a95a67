import Independence.Heap.Effects
/-!
# The heap

A heap gives each known object its properties. Effects are committed onto a heap for a while and then rolled
back: `commit` returns what is needed to undo it, `rollback` uses that. The lemmas say what each operation
does to the value of a binding.
-/

namespace Independence

abbrev Properties := Std.ExtTreeMap Key Value

structure Heap where
  objects : Std.ExtTreeMap ObjectId Properties

namespace Heap

def empty : Heap := ⟨∅⟩

instance : Inhabited Heap := ⟨empty⟩

def get? (h : Heap) (b : Binding) : Option Value :=
  h.objects[b.object]?.bind (·[b.key]?)

def knows (h : Heap) (o : ObjectId) : Bool := h.objects.contains o

/-- The properties of an object, none if it is not known. -/
def properties (h : Heap) (o : ObjectId) : Properties := h.objects.getD o ∅

def addObject (h : Heap) (o : ObjectId) : Heap := ⟨h.objects.insert o ∅⟩

def dropObject (h : Heap) (o : ObjectId) : Heap := ⟨h.objects.erase o⟩

/-- Sets a binding, or deletes it if no value is given. The object becomes known. -/
def put (h : Heap) (b : Binding) (v : Option Value) : Heap :=
  ⟨h.objects.insert b.object
    (match v with
      | some v => (h.properties b.object).insert b.key v
      | none => (h.properties b.object).erase b.key)⟩

/-- What a commit changed: the objects it made known and the bindings it wrote with the values they had,
last write first. -/
structure Undo where
  introduced : List ObjectId
  previous : List (Binding × Option Value)

/-- Writes one binding and notes its previous value. -/
def putNoting (s : Heap × List (Binding × Option Value)) (b : Binding) (site : WriteSite) :
    Heap × List (Binding × Option Value) :=
  (s.1.put b site.value, (b, s.1.get? b) :: s.2)

/-- Applies effects: created objects become known, then every write is stored. -/
def commit (h : Heap) (e : Effects) : Heap × Undo :=
  let introduced := e.created.toList.filter (!h.knows ·)
  let (h, previous) := e.writes.foldl putNoting (introduced.foldl addObject h, [])
  (h, ⟨introduced, previous⟩)

/-- Undoes a commit: written bindings get back the values they had, then introduced objects are forgotten. -/
def rollback (h : Heap) (u : Undo) : Heap :=
  u.introduced.foldl dropObject (u.previous.foldl (fun h p => h.put p.1 p.2) h)

/-! ## Values of bindings -/

theorem get?_properties (h : Heap) (b : Binding) : h.get? b = (h.properties b.object)[b.key]? := by
  unfold get? properties
  rw [Std.ExtTreeMap.getD_eq_getD_getElem?]
  cases h.objects[b.object]? <;> simp

theorem properties_put (h : Heap) (b : Binding) (v : Option Value) (o : ObjectId) :
    (h.put b v).properties o = if o = b.object then
      (match v with
        | some v => (h.properties b.object).insert b.key v
        | none => (h.properties b.object).erase b.key) else h.properties o := by
  simp only [properties, put, Std.ExtTreeMap.getD_insert, Std.compare_eq_iff_eq]
  by_cases ho : o = b.object
  · simp [ho]
  · simp [ho, Ne.symm ho]

@[simp] theorem get?_put (h : Heap) (b c : Binding) (v : Option Value) :
    (h.put b v).get? c = if c = b then v else h.get? c := by
  obtain ⟨o, k⟩ := b
  obtain ⟨o', k'⟩ := c
  rw [get?_properties, get?_properties, properties_put]
  by_cases ho : o' = o
  · subst ho
    by_cases hk : k' = k
    · subst hk; cases v <;> simp
    · cases v <;>
        simp [Std.ExtTreeMap.getElem?_insert, Std.ExtTreeMap.getElem?_erase, hk, Ne.symm hk]
  · simp [ho]

@[simp] theorem get?_dropObject (h : Heap) (o : ObjectId) (c : Binding) :
    (h.dropObject o).get? c = if c.object = o then none else h.get? c := by
  simp only [get?, dropObject, Std.ExtTreeMap.getElem?_erase, Std.compare_eq_iff_eq]
  by_cases ho : o = c.object <;> simp [ho, eq_comm]

@[simp] theorem get?_addObject (h : Heap) (o : ObjectId) (c : Binding) :
    (h.addObject o).get? c = if c.object = o then none else h.get? c := by
  simp only [get?, addObject, Std.ExtTreeMap.getElem?_insert, Std.compare_eq_iff_eq]
  by_cases ho : o = c.object <;> simp [ho, eq_comm]

/-- Making an object known that was not leaves every binding as it was. -/
theorem get?_addObject_of_not_knows (h : Heap) (o : ObjectId) (c : Binding) (ho : h.knows o = false) :
    (h.addObject o).get? c = h.get? c := by
  rw [get?_addObject]
  split
  · next hc =>
    subst hc
    have : h.objects[c.object]? = none := Std.ExtTreeMap.getElem?_eq_none_of_contains_eq_false ho
    simp [get?, this]
  · rfl

end Heap

end Independence
