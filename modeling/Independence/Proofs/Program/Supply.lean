import Mathlib.Data.List.Forall2
import Mathlib.Data.List.Nodup
import Independence.Program.Placeholder
/-!
# One supply for many calls

All calls of an analysis take their placeholders from one supply. A demand for a call is met with a placeholder for each
parameter and one for the receiver, or it is refused for its first parameter that is not simple, and then nothing is taken.
Whatever is demanded in a row, the placeholders are numbered as they are handed out, without a gap, so none is handed out
twice.
-/

namespace Independence

/-- A callable that is to be called with placeholders. -/
structure Demand where
  callable : CallableId
  signature : Signature
  shape : Option Shape

/-- The placeholders of a call, in the order in which they are made. -/
def Call.placeholders (c : Call) : List AbstractId := c.args.map AbstractValue.id ++ [c.receiver.id]

def ParameterPattern.IsSimple (p : ParameterPattern) : Prop := ∃ name, p = .simple name

namespace Placeholders

/-- Answers a demand. To refuse it takes nothing. -/
def serve (p : Placeholders) (d : Demand) : Except UnsupportedParameter Call × Placeholders :=
  match p.synthesize d.callable d.signature d.shape with
  | .ok (call, rest) => (.ok call, rest)
  | .error u => (.error u, p)

/-- Answers the demands, the first one first. -/
def serveAll (p : Placeholders) : List Demand → List (Except UnsupportedParameter Call) × Placeholders
  | [] => ([], p)
  | d :: demands =>
    let (answer, p) := p.serve d
    let (answers, p) := p.serveAll demands
    (answer :: answers, p)

/-- The placeholders in all calls among the answers. -/
def handedOut (answers : List (Except UnsupportedParameter Call)) : List AbstractId :=
  (answers.filterMap Except.toOption).flatMap Call.placeholders

/-- How many placeholders the demands need that were met: all in all one for each parameter and one more. -/
def needed : List Demand → List (Except UnsupportedParameter Call) → Nat
  | d :: demands, .ok _ :: answers => d.signature.params.length + 1 + needed demands answers
  | _ :: demands, .error _ :: answers => needed demands answers
  | _, _ => 0

end Placeholders

/-! ## What an answer says -/

namespace Demand

/-- The argument stands for the parameter: it has its name, and the type that the shape has for that name. It is unknown if
there is no shape, or none for that name in it. -/
structure StandsFor (d : Demand) (x : Parameter) (a : AbstractValue) : Prop where
  name : x.pattern = .simple a.name
  hinted : ∀ shape type, d.shape = some shape → shape.params.lookup a.name = some type → a.type = type
  unhinted : (∀ shape, d.shape = some shape → shape.params.lookup a.name = none) → a.type = .unknown
  location : a.location = d.signature.location

/-- The value stands for the receiver, with the type that the shape has for it. It is an object if there is none. -/
structure StandsForReceiver (d : Demand) (a : AbstractValue) : Prop where
  name : a.name = "this"
  hinted : ∀ shape type, d.shape = some shape → shape.receiver = some type → a.type = type
  unhinted : (∀ shape, d.shape = some shape → shape.receiver = none) → a.type = .object
  location : a.location = d.signature.location

/-- The call has an argument for each parameter, in order, and a receiver. -/
structure Met (d : Demand) (c : Call) : Prop where
  callee : c.callee = d.callable
  location : c.location = d.signature.location
  args : List.Forall₂ d.StandsFor d.signature.params c.args
  receiver : d.StandsForReceiver c.receiver

/-- The parameter reported is the first one that is not simple. It is reported where it stands, or where the callable is
if its span is a dummy, which is one on line 0. -/
structure Refused (d : Demand) (u : UnsupportedParameter) : Prop where
  parameter : ∃ x, d.signature.params[u.index]? = some x ∧ ¬ x.pattern.IsSimple ∧ u.pattern = x.pattern ∧
    u.location = if x.span.line = 0 then d.signature.location else ⟨d.signature.location.file, x.span⟩
  first : ∀ x ∈ d.signature.params.take u.index, x.pattern.IsSimple

def Answered (d : Demand) : Except UnsupportedParameter Call → Prop
  | .ok c => d.Met c
  | .error u => d.Refused u

end Demand

variable {s : Signature} {d : Demand} {p : Placeholders}

/-! ## One demand -/

namespace Demand

theorem standsFor (d : Demand) {x : Parameter} {name : String} (h : x.pattern = .simple name) (i : AbstractId) :
    d.StandsFor x ⟨i, name, Shape.typeOf d.shape name, d.signature.location⟩ where
  name := h
  hinted _ _ hshape htype := by simp [Shape.typeOf, hshape, htype]
  unhinted hnone := by
    unfold Shape.typeOf
    cases hshape : d.shape with
    | none => rfl
    | some shape => simp [hnone shape hshape]
  location := rfl

theorem standsForReceiver (d : Demand) (i : AbstractId) :
    d.StandsForReceiver ⟨i, "this", Shape.receiverType d.shape, d.signature.location⟩ where
  name := rfl
  hinted _ _ hshape htype := by simp [Shape.receiverType, hshape, htype]
  unhinted hnone := by
    unfold Shape.receiverType
    cases hshape : d.shape with
    | none => rfl
    | some shape => simp [hnone shape hshape]
  location := rfl

end Demand

namespace Signature

theorem locationOf_eq (s : Signature) (x : Parameter) :
    s.locationOf x = if x.span.line = 0 then s.location else ⟨s.location.file, x.span⟩ := by
  simp [locationOf, Span.isDummy]

theorem names_of_simpleNamesFrom {params : List Parameter} {index : Nat} {names : List String}
    (h : s.simpleNamesFrom index params = .ok names) :
    List.Forall₂ (fun x name => x.pattern = .simple name) params names := by
  induction params generalizing index names with
  | nil =>
    cases h
    exact .nil
  | cons x params ih =>
    unfold simpleNamesFrom at h
    split at h
    · next name hname =>
      cases hrest : s.simpleNamesFrom (index + 1) params with
      | error u =>
        rw [hrest] at h
        cases h
      | ok rest =>
        rw [hrest] at h
        cases h
        exact .cons hname (ih hrest)
    · cases h

/-- Where the names cannot be had, there is a first parameter in the way. -/
theorem first_of_simpleNamesFrom {params : List Parameter} {index : Nat} {u : UnsupportedParameter}
    (h : s.simpleNamesFrom index params = .error u) :
    ∃ k x, u = ⟨index + k, x.pattern, s.locationOf x⟩ ∧ params[k]? = some x ∧ ¬ x.pattern.IsSimple ∧
      ∀ y ∈ params.take k, y.pattern.IsSimple := by
  induction params generalizing index with
  | nil => cases h
  | cons x params ih =>
    unfold simpleNamesFrom at h
    split at h
    · next name hname =>
      cases hrest : s.simpleNamesFrom (index + 1) params with
      | ok rest =>
        rw [hrest] at h
        cases h
      | error v =>
        rw [hrest] at h
        cases h
        obtain ⟨k, y, rfl, hy, hnot, hbefore⟩ := ih hrest
        refine ⟨k + 1, y, by rw [Nat.add_right_comm, Nat.add_assoc], hy, hnot, ?_⟩
        intro z hz
        rw [List.take_succ_cons, List.mem_cons] at hz
        rcases hz with rfl | hz
        · exact ⟨name, hname⟩
        · exact hbefore z hz
    · next hnot =>
      cases h
      refine ⟨0, x, rfl, rfl, ?_, by simp⟩
      rintro ⟨name, hname⟩
      exact hnot name hname

end Signature

namespace Placeholders

theorem ids_arguments (l : Location) (shape : Option Shape) (first : Nat) (names : List String) :
    (arguments l shape first names).map AbstractValue.id = (List.range' first names.length).map .mk := by
  induction names generalizing first with
  | nil => rfl
  | cons name names ih => simp [arguments, List.range'_succ, ih]

theorem standsFor_arguments {params : List Parameter} {names : List String}
    (h : List.Forall₂ (fun x name => x.pattern = .simple name) params names) (d : Demand) (first : Nat) :
    List.Forall₂ d.StandsFor params (arguments d.signature.location d.shape first names) := by
  induction h generalizing first with
  | nil => exact .nil
  | cons hname _ ih => exact .cons (d.standsFor hname ⟨first⟩) (ih (first + 1))

theorem serve_of_error {u : UnsupportedParameter} (h : d.signature.simpleNames = .error u) :
    p.serve d = (.error u, p) := by
  unfold serve synthesize
  rw [h]
  rfl

theorem serve_of_simple {names : List String} (h : d.signature.simpleNames = .ok names) :
    p.serve d = (.ok ⟨d.callable,
      ⟨⟨p.created + names.length⟩, "this", Shape.receiverType d.shape, d.signature.location⟩,
      arguments d.signature.location d.shape p.created names, d.signature.location⟩,
      ⟨p.created + names.length + 1⟩) := by
  unfold serve synthesize
  rw [h]
  rfl

theorem serve_answered (p : Placeholders) (d : Demand) : d.Answered (p.serve d).1 := by
  cases hnames : d.signature.simpleNames with
  | error u =>
    obtain ⟨k, x, rfl, hx, hnot, hbefore⟩ := Signature.first_of_simpleNamesFrom hnames
    rw [serve_of_error hnames, Nat.zero_add]
    exact ⟨⟨x, hx, hnot, rfl, d.signature.locationOf_eq x⟩, hbefore⟩
  | ok names =>
    have hsimple := Signature.names_of_simpleNamesFrom hnames
    rw [serve_of_simple hnames]
    exact ⟨rfl, rfl, standsFor_arguments hsimple d p.created, d.standsForReceiver _⟩

/-- The placeholders of an answer are the next ones, and the supply goes on behind them. -/
theorem serve_takes (p : Placeholders) (d : Demand) :
    handedOut [(p.serve d).1] = (List.range' p.created (needed [d] [(p.serve d).1])).map .mk ∧
      (p.serve d).2.created = p.created + needed [d] [(p.serve d).1] := by
  cases hnames : d.signature.simpleNames with
  | error u =>
    rw [serve_of_error hnames]
    exact ⟨rfl, rfl⟩
  | ok names =>
    have hlength := (Signature.names_of_simpleNamesFrom hnames).length_eq
    have hneeded : ∀ c : Call, needed [d] [.ok c] = names.length + 1 := by
      intro c
      simp [needed, hlength]
    rw [serve_of_simple hnames, hneeded]
    refine ⟨?_, rfl⟩
    rw [List.range'_concat, List.map_append, ← ids_arguments d.signature.location d.shape]
    simp [handedOut, Except.toOption, Call.placeholders]

/-! ## Demands in a row -/

theorem handedOut_cons (answer : Except UnsupportedParameter Call) (answers : List (Except UnsupportedParameter Call)) :
    handedOut (answer :: answers) = handedOut [answer] ++ handedOut answers := by
  rw [handedOut, ← List.singleton_append, List.filterMap_append, List.flatMap_append]
  rfl

theorem needed_cons (d : Demand) (demands : List Demand) (answer : Except UnsupportedParameter Call)
    (answers : List (Except UnsupportedParameter Call)) :
    needed (d :: demands) (answer :: answers) = needed [d] [answer] + needed demands answers := by
  cases answer <;> simp [needed]

theorem serveAll_answered (p : Placeholders) (demands : List Demand) :
    List.Forall₂ Demand.Answered demands (p.serveAll demands).1 := by
  induction demands generalizing p with
  | nil => exact .nil
  | cons d demands ih => exact .cons (p.serve_answered d) (ih (p.serve d).2)

/-- All placeholders of the calls are the next ones in order. -/
theorem serveAll_takes (p : Placeholders) (demands : List Demand) :
    let (answers, rest) := p.serveAll demands
    handedOut answers = (List.range' p.created (needed demands answers)).map .mk ∧
      rest.created = p.created + needed demands answers := by
  induction demands generalizing p with
  | nil => exact ⟨rfl, rfl⟩
  | cons d demands ih =>
    obtain ⟨hfirst, hcreated⟩ := p.serve_takes d
    obtain ⟨hrest, htotal⟩ := ih (p.serve d).2
    simp only [serveAll]
    rw [handedOut_cons, needed_cons]
    constructor
    · rw [hfirst, hrest, hcreated, ← List.map_append, List.range'_append_1]
    · rw [htotal, hcreated, Nat.add_assoc]

/-- A demand is refused exactly if some parameter is not simple. -/
theorem refused_iff {d : Demand} {answer : Except UnsupportedParameter Call} (h : d.Answered answer) :
    (∃ u, answer = .error u) ↔ ∃ x ∈ d.signature.params, ¬ x.pattern.IsSimple := by
  cases answer with
  | error u =>
    obtain ⟨⟨x, hx, hnot, -⟩, -⟩ := h
    exact ⟨fun _ => ⟨x, List.mem_of_getElem? hx, hnot⟩, fun _ => ⟨u, rfl⟩⟩
  | ok c =>
    have hsimple : ∀ x ∈ d.signature.params, x.pattern.IsSimple :=
      ((List.forall₂_and_left _ _).1 (h.args.imp fun _ a ha => ⟨⟨a.name, ha.name⟩, ha⟩)).1
    constructor
    · rintro ⟨u, hu⟩
      cases hu
    · rintro ⟨x, hx, hnot⟩
      exact absurd (hsimple x hx) hnot

/-- What comes later does not change the answers. -/
theorem serveAll_take (p : Placeholders) (demands : List Demand) (n : Nat) :
    (p.serveAll (demands.take n)).1 = (p.serveAll demands).1.take n := by
  induction demands generalizing p n with
  | nil => simp [serveAll]
  | cons d demands ih =>
    cases n with
    | zero => simp [serveAll]
    | succ n => simpa [serveAll] using ih (p.serve d).2 n

/-- Demands in a row, for every supply to begin with. One is refused exactly if it has a parameter that is not simple; then
the first such parameter is reported, where it stands or else where the callable is. Otherwise it is met with an argument
for each parameter in order and a receiver, with the names of the parameters and the types hinted; where nothing is hinted
an argument is unknown and a receiver is an object. No placeholder is handed out twice, and none that was made before. At
every moment the supply has moved on by one for each parameter and one more for each demand that was met, so not at all for
one that was refused. -/
theorem numbers_each_once (p : Placeholders) (demands : List Demand) :
    let answers := (p.serveAll demands).1
    List.Forall₂ Demand.Answered demands answers ∧
    List.Forall₂ (fun d answer => (∃ u, answer = .error u) ↔ ∃ x ∈ d.signature.params, ¬ x.pattern.IsSimple)
      demands answers ∧
    (handedOut answers).Nodup ∧
    (∀ a ∈ handedOut answers, p.created ≤ a.index) ∧
    ∀ n, (p.serveAll (demands.take n)).2.created = p.created + needed (demands.take n) (answers.take n) := by
  intro answers
  have hanswered := p.serveAll_answered demands
  obtain ⟨hids, -⟩ := p.serveAll_takes demands
  refine ⟨hanswered, hanswered.imp fun _ _ => refused_iff, ?_, ?_, fun n => ?_⟩
  · rw [hids]
    refine List.Nodup.map ?_ List.nodup_range'
    rintro _ _ ⟨⟩
    rfl
  · rw [hids]
    intro a ha
    obtain ⟨i, hi, rfl⟩ := List.mem_map.1 ha
    exact (List.mem_range'_1.1 hi).1
  · rw [← serveAll_take]
    exact (p.serveAll_takes (demands.take n)).2

end Placeholders

end Independence
