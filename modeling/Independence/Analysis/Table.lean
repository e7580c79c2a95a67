import Independence.Analysis.Record
/-!
# The table of records

One record for each candidate, in the order in which the candidates were captured, with an index of the places
where they stand. The index is right whatever is inserted, so there is one record for each owner. The parents of
the records make a forest; a walk along the parents stops after one step more than there are records, should they
form a cycle.
-/

namespace Independence

structure Table where
  records : List Record
  /-- Where the record of each owner stands. -/
  index : Std.ExtTreeMap CallableId Nat
  indexed : ∀ f i, index[f]? = some i ↔ (records[i]?).map Record.owner = some f

namespace Table

def empty : Table := ⟨[], ∅, by simp⟩

def size (t : Table) : Nat := t.records.length

def isEmpty (t : Table) : Bool := t.records.isEmpty

def owners (t : Table) : List CallableId := t.records.map Record.owner

def contains (t : Table) (f : CallableId) : Bool := t.index.contains f

def get? (t : Table) (f : CallableId) : Option Record := t.index[f]?.bind (t.records[·]?)

def parent? (t : Table) (f : CallableId) : Option CallableId := (t.get? f).bind Record.parent

/-- Who owns a record after one was appended. -/
theorem owner_concat_iff (t : Table) (r : Record) (f : CallableId) (i : Nat) :
    ((t.records ++ [r])[i]?).map Record.owner = some f ↔
      (t.records[i]?).map Record.owner = some f ∨ t.size = i ∧ r.owner = f := by
  unfold size
  rcases Nat.lt_trichotomy i t.records.length with hi | rfl | hi
  · rw [List.getElem?_append_left hi]
    simp [Nat.ne_of_gt hi]
  · simp
  · have hbefore : t.records[i]? = none := List.getElem?_eq_none (Nat.le_of_lt hi)
    have hout : (t.records ++ [r])[i]? = none := by
      rw [List.getElem?_append_right (Nat.le_of_lt hi)]
      exact List.getElem?_eq_none (Nat.sub_pos_of_lt hi)
    rw [hout, hbefore]
    simp [Nat.ne_of_lt hi]

/-- The index stays right when a record is appended whose owner had none. -/
theorem indexed_concat (t : Table) (r : Record) (hnew : t.index[r.owner]? = none) (f : CallableId) (i : Nat) :
    (t.index.insert r.owner t.size)[f]? = some i ↔ ((t.records ++ [r])[i]?).map Record.owner = some f := by
  rw [owner_concat_iff, Std.ExtTreeMap.getElem?_insert, ← t.indexed]
  split
  · next heq =>
    obtain rfl := Std.LawfulEqCmp.eq_of_compare heq
    simp [hnew]
  · next hne =>
    have hother : r.owner ≠ f := by
      rintro rfl
      exact hne Std.ReflCmp.compare_self
    simp [hother]

/-- The table with a record appended, unless its owner has one already. -/
def insert? (t : Table) (r : Record) : Option Table :=
  if h : t.contains r.owner then none
  else some ⟨t.records ++ [r], t.index.insert r.owner t.size,
    t.indexed_concat r (Std.ExtTreeMap.getElem?_eq_none fun hmem => h (Std.ExtTreeMap.mem_iff_contains.1 hmem))⟩

/-- The records along the parents, innermost first, in at most so many steps. -/
def ascend (t : Table) : Nat → Option CallableId → List Record
  | 0, _ | _, none => []
  | steps + 1, some parent =>
    match t.get? parent with
    | none => []
    | some record => record :: t.ascend steps record.parent

/-- The records whose commits enclose the capture of `f`, outermost first. -/
def ancestors (t : Table) (f : CallableId) : List Record :=
  (t.ascend (t.size + 1) (t.parent? f)).reverse

/-- Whether `ancestor` is met along the parents in at most so many steps. -/
def meets (t : Table) (ancestor : CallableId) : Nat → Option CallableId → Bool
  | 0, _ | _, none => false
  | steps + 1, some parent => parent == ancestor || t.meets ancestor steps (t.parent? parent)

/-- Whether `ancestor` is on the chain of parents of `f`. -/
def isAncestor (t : Table) (ancestor f : CallableId) : Bool :=
  t.meets ancestor (t.size + 1) (t.parent? f)

end Table

end Independence
