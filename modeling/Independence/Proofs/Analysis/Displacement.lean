import Independence.Proofs.Analysis.Accounts
import Independence.Proofs.Analysis.Discovery
/-!
# One analysis in two places

An analysis may begin from nothing, or in a session `k` in which requests were processed already. What it does there is
the same, but that the numbers of new objects and of commits are moved up, and that its records and the requests that it
processes come on top of those of `k`. Here it is said how a session of the one corresponds to a session of the other.
-/

namespace Independence

variable {m₀ : Model} {k s s' : Session Model} {opened : List Record} {f a : CallableId} {c : Nat}

/-! ## Numbers moved up -/

/-- The baseline of a later commit. There is one global baseline only. -/
def BaselineId.moved (c : Nat) (b : BaselineId) : BaselineId := if b.isGlobal then b else ⟨b.index + c⟩

@[simp] theorem BaselineId.moved_zero (b : BaselineId) : b.moved 0 = b := by simp [moved]

def Frame.moved (c : Nat) (frame : Frame) : Frame := { frame with baseline := frame.baseline.map (BaselineId.moved c) }

/-- The traversal with `c` commits more before it. -/
def Traversal.moved (c : Nat) (t : Traversal) : Traversal := ⟨t.frames.map (Frame.moved c), t.pending, t.commits + c⟩

/-- The record with its objects renamed and its baseline moved up. -/
def Record.moved (f : ObjectId → ObjectId) (c : Nat) (r : Record) : Record :=
  { r with effects := r.effects.rename f, baseline := r.baseline.moved c }

@[simp] theorem Record.owner_moved (f : ObjectId → ObjectId) (c : Nat) (r : Record) : (r.moved f c).owner = r.owner := rfl

@[simp] theorem Record.parent_moved (f : ObjectId → ObjectId) (c : Nat) (r : Record) : (r.moved f c).parent = r.parent :=
  rfl

namespace Traversal

variable (c : Nat) (t : Traversal)

@[simp] theorem candidates_moved : (t.moved c).candidates = t.candidates := by
  simp [candidates, moved, Frame.moved, Function.comp_def]

@[simp] theorem current?_moved : (t.moved c).current? = t.current? := by simp [current?]

@[simp] theorem depth_moved : (t.moved c).depth = t.depth := by simp [depth, moved]

@[simp] theorem isUnwound_moved : (t.moved c).isUnwound = t.isUnwound := by simp [isUnwound, moved]

@[simp] theorem committed?_moved : (t.moved c).committed? = t.committed?.map (Frame.moved c) := by
  simp [committed?, moved, Frame.moved, List.find?_map, Function.comp_def]

@[simp] theorem parent?_moved : (t.moved c).parent? = t.parent? := by
  simp [parent?, Frame.moved, Function.comp_def]

@[simp] theorem baseline_moved : (t.moved c).baseline = t.baseline.moved c := by
  have hglobal : BaselineId.global.moved c = .global := rfl
  simp only [baseline, committed?_moved]
  cases t.committed? with
  | none => exact hglobal.symm
  | some frame =>
    cases hb : frame.baseline with
    | none => simp [Frame.moved, hb, hglobal]
    | some b => simp [Frame.moved, hb]

theorem enter_moved (f : CallableId) : (t.moved c).enter f = (t.enter f).moved c := by
  simp [enter, moved, Frame.moved]

theorem leave_moved : (t.moved c).leave = t.leave.moved c := by
  obtain ⟨frames, pending, commits⟩ := t
  cases frames <;> simp [leave, moved, Frame.moved]

theorem takePending_moved : (t.moved c).takePending = (t.takePending.1, t.takePending.2.moved c) := rfl

theorem register_moved (r : Request) : (t.moved c).register r = (t.register r).moved c := rfl

theorem commit_moved : (t.moved c).commit.2 = t.commit.2.moved c := by
  obtain ⟨frames, pending, commits⟩ := t
  have hnext : (⟨commits + c + 1⟩ : BaselineId) = (⟨commits + 1⟩ : BaselineId).moved c := by
    simp [BaselineId.moved, BaselineId.isGlobal, BaselineId.global, Nat.add_right_comm]
  cases frames with
  | nil => simp [commit, moved, Nat.add_right_comm]
  | cons frame frames => simp [commit, moved, Frame.moved, hnext, Nat.add_right_comm]

end Traversal

/-! ## Accepted ancestors -/

theorem Session.Accounted.accepted_parent? (h : s.Accounted) (hp : s.table.parent? f = some a) : Accepted s.visits a := by
  obtain ⟨r, hr, hp⟩ := Option.bind_eq_some_iff.1 hp
  exact h.parents r (Table.mem_of_get? hr) a hp

theorem Session.Accounted.accepted_ancestor (h : s.Accounted) (hanc : s.table.Ancestor a f) : Accepted s.visits a := by
  induction hanc with
  | single hp => exact h.accepted_parent? hp
  | tail _ hp _ => exact h.accepted_parent? hp

/-! ## Corresponding sessions -/

namespace Session

/-- How many objects more than by `m₀` were handed out when `k` began. -/
def ahead (m₀ : Model) (k : Session Model) : Nat := k.evaluator.nextObject - m₀.nextObject

/-- What the objects of an analysis that begins on `m₀` become in one that begins in `k`. -/
def placed (m₀ : Model) (k : Session Model) : ObjectId → ObjectId := .shift m₀.nextObject (k.ahead m₀)

/-- What a record of an analysis that begins on `m₀` becomes in one that begins in `k`. -/
def place (m₀ : Model) (k : Session Model) : Record → Record := Record.moved (k.placed m₀) k.traversal.commits

/-- An analysis that began on `m₀` and is in the session `s`, with the records `opened` committed, would be in `s'` if it
had begun in `k`. None of the callables accepted since had been accepted in `k`. -/
structure Beside (m₀ : Model) (k : Session Model) (opened : List Record) (s s' : Session Model) : Prop where
  under : m₀.Under ((Record.effectsAlong opened).map (Effects.rename (k.placed m₀))) s'.evaluator
  objects : s'.evaluator.nextObject = s.evaluator.nextObject + k.ahead m₀
  traversal : s'.traversal = s.traversal.moved k.traversal.commits
  visits : s'.visits = s.visits ++ k.visits
  records : s'.table.records = k.table.records ++ s.table.records.map (k.place m₀)
  reporter : k.reporter.Beside s.reporter s'.reporter
  apart : ∀ f, Accepted s.visits f → ¬ Accepted k.visits f

/-- Between its roots an analysis can take in new ones as it could at its start. -/
theorem beside_start (h : m₀.Under [] k.evaluator) (hframes : k.traversal.frames = [])
    (hpending : k.traversal.pending = []) (hhandler : k.reporter.handler = none) (roots queue : List Request)
    (earlier : List Diagnostic) :
    Beside m₀ k [] (.start m₀ roots (.new k.reporter.policy none earlier)) { k with queue } where
  under := h
  objects := by
    have := h.le_next
    simp only [ahead, start]
    omega
  traversal := by
    cases ht : k.traversal
    rw [ht] at hframes hpending
    simp_all [Traversal.moved, start, Traversal.empty]
  visits := rfl
  records := by simp [start, Table.empty]
  reporter := Reporter.beside_start rfl hhandler earlier
  apart f hf := by
    obtain ⟨v, hv, -⟩ := hf
    cases hv

namespace Beside

/-- Nothing but reports, the queue and the placeholders may be different. -/
theorem of_eq {t t' : Session Model} (h : Beside m₀ k opened s s') (he : t.evaluator = s.evaluator)
    (ht : t.traversal = s.traversal) (hv : t.visits = s.visits) (hr : t.table = s.table)
    (he' : t'.evaluator = s'.evaluator) (ht' : t'.traversal = s'.traversal) (hv' : t'.visits = s'.visits)
    (hr' : t'.table = s'.table) (hreporter : k.reporter.Beside t.reporter t'.reporter) : Beside m₀ k opened t t' where
  under := he' ▸ h.under
  objects := by rw [he, he', h.objects]
  traversal := by rw [ht, ht', h.traversal]
  visits := by rw [hv, hv', h.visits]
  records := by rw [hr, hr', h.records]
  reporter := hreporter
  apart := by rw [hv]; exact h.apart

/-- What is in the queue where it begins does not matter. -/
theorem of_queue {queue : List Request} (h : Beside m₀ { k with queue } opened s s') : Beside m₀ k opened s s' :=
  ⟨h.under, h.objects, h.traversal, h.visits, h.records, h.reporter, h.apart⟩

/-! ### What happens next -/

/-- A visit is noted in both. -/
theorem noted (h : Beside m₀ k opened s s') {v : Visit} (hv : v.outcome = .accepted → ¬ Accepted k.visits v.callable) :
    Beside m₀ k opened { s with visits := v :: s.visits } { s' with visits := v :: s'.visits } where
  under := h.under
  objects := h.objects
  traversal := h.traversal
  visits := by simp [h.visits]
  records := h.records
  reporter := h.reporter
  apart f hf := by
    obtain ⟨v', hv', rfl, ho⟩ := hf
    rcases List.mem_cons.1 hv' with rfl | hv'
    · exact hv ho
    · exact h.apart _ ⟨v', hv', rfl, ho⟩

theorem enter (h : Beside m₀ k opened s s') (f : CallableId) : Beside m₀ k opened (s.enter f) (s'.enter f) where
  under := h.under
  objects := h.objects
  traversal := by simp [Session.enter, h.traversal, Traversal.enter_moved]
  visits := h.visits
  records := h.records
  reporter := h.reporter
  apart := h.apart

theorem leave (h : Beside m₀ k opened s s') : Beside m₀ k opened s.leave s'.leave where
  under := h.under
  objects := h.objects
  traversal := by simp [Session.leave, h.traversal, Traversal.leave_moved]
  visits := h.visits
  records := h.records
  reporter := h.reporter
  apart := h.apart

/-- A record is added in both, and what is pending is taken. -/
theorem gains (h : Beside m₀ k opened s s') {r : Record} {table table' : Table} (ht : s.table.insert? r = some table)
    (ht' : s'.table.insert? (k.place m₀ r) = some table') :
    Beside m₀ k opened { s with table, traversal := s.traversal.takePending.2 }
      { s' with table := table', traversal := s'.traversal.takePending.2 } where
  under := h.under
  objects := h.objects
  traversal := by simp [h.traversal, Traversal.takePending_moved]
  visits := h.visits
  records := by simp [Table.records_insert? ht, Table.records_insert? ht', h.records]
  reporter := h.reporter
  apart := h.apart

theorem commit (h : Beside m₀ k opened s s') (r : Record) :
    Beside m₀ k (r :: opened) (s.commit r.effects) (s'.commit (k.place m₀ r).effects) where
  under := by
    rw [Record.effectsAlong_cons, List.map_append]
    exact h.under.commit (k.place m₀ r).effects
  objects := h.objects
  traversal := by simp [Session.commit, h.traversal, Traversal.commit_moved]
  visits := h.visits
  records := h.records
  reporter := h.reporter
  apart := h.apart

/-- Each of the two rolls its own commit back. -/
theorem unwind (h : Beside m₀ k opened s s') {r : Record} {u u' : Session Model} (hu : Beside m₀ k (r :: opened) u u') :
    Beside m₀ k opened (s.unwind r.effects u) (s'.unwind (k.place m₀ r).effects u') where
  under := by
    have hunder := hu.under
    rw [Record.effectsAlong_cons, List.map_append] at hunder
    exact h.under.rollback hunder
  objects := hu.objects
  traversal := by simp [Session.unwind, hu.traversal, Traversal.leave_moved]
  visits := hu.visits
  records := hu.records
  reporter := hu.reporter
  apart := hu.apart

/-! ### Requests -/

theorem accepted?_some (h : Beside m₀ k opened s s') {first : Visit} (hf : s.accepted? f = some first) :
    s'.accepted? f = some first := by
  unfold accepted? at hf ⊢
  rw [h.visits, List.find?_append, hf]
  rfl

theorem accepted?_none (h : Beside m₀ k opened s s') (hf : s.accepted? f = none) : s'.accepted? f = k.accepted? f := by
  unfold accepted? at hf ⊢
  rw [h.visits, List.find?_append, hf]
  rfl

/-! ### Records -/

theorem owners (h : Beside m₀ k opened s s') : s'.table.owners = k.table.owners ++ s.table.owners := by
  simp [Table.owners, h.records, place, Function.comp_def]

theorem contains (h : Beside m₀ k opened s s') (hk : k.Accounted) (hf : ¬ Accepted k.visits f) :
    s'.table.contains f = s.table.contains f := by
  have hnew : f ∉ k.table.owners := by
    intro hmem
    obtain ⟨r, hr, rfl⟩ := List.mem_map.1 hmem
    exact hf (hk.owners r hr)
  simp [Table.contains_eq, h.owners, hnew]

/-- Who was accepted since has the record of the analysis from the start. -/
theorem get? (h : Beside m₀ k opened s s') (hk : k.Accounted) (hf : ¬ Accepted k.visits f) :
    s'.table.get? f = (s.table.get? f).map (k.place m₀) := by
  have hnone : k.table.records.find? (·.owner == f) = none := by
    refine List.find?_eq_none.2 fun r hr howner => hf ?_
    rw [← beq_iff_eq.1 howner]
    exact hk.owners r hr
  simp [Table.get?_eq_find?, h.records, List.find?_append, hnone, List.find?_map, Function.comp_def, place]

/-- Who was accepted before has the record from then. -/
theorem get?_before (h : Beside m₀ k opened s s') (hs : s.Accounted) (hf : Accepted k.visits f) :
    s'.table.get? f = k.table.get? f := by
  have hnone : (s.table.records.map (k.place m₀)).find? (·.owner == f) = none := by
    refine List.find?_eq_none.2 fun r hr howner => ?_
    obtain ⟨q, hq, rfl⟩ := List.mem_map.1 hr
    rw [← beq_iff_eq.1 howner] at hf
    exact h.apart _ (hs.owners q hq) hf
  simp [Table.get?_eq_find?, h.records, List.find?_append, hnone]

theorem parent? (h : Beside m₀ k opened s s') (hk : k.Accounted) (hf : Accepted s.visits f) :
    s'.table.parent? f = s.table.parent? f := by
  simp only [Table.parent?, h.get? hk (h.apart f hf), Option.bind_map]
  rfl

/-- The ancestors of who was accepted since are those in the analysis from the start. -/
theorem ancestor_iff (h : Beside m₀ k opened s s') (hk : k.Accounted) (hs : s.Accounted) (hf : Accepted s.visits f) :
    s'.table.Ancestor a f ↔ s.table.Ancestor a f := by
  constructor
  · intro hanc
    -- Along the way everybody was accepted since.
    induction hanc using Relation.TransGen.head_induction_on with
    | single hp => exact .single (h.parent? hk hf ▸ hp)
    | head hp _ ih =>
      rw [h.parent? hk hf] at hp
      exact .head hp (ih (hs.accepted_parent? hp))
  · intro hanc
    induction hanc using Relation.TransGen.head_induction_on with
    | single hp => exact .single ((h.parent? hk hf).trans hp)
    | head hp _ ih => exact .head ((h.parent? hk hf).trans hp) (ih (hs.accepted_parent? hp))

/-- The ancestors of who was accepted before were accepted before. -/
theorem accepted_ancestor (h : Beside m₀ k opened s s') (hk : k.Accounted) (hs : s.Accounted)
    (hf : Accepted k.visits f) (hanc : s'.table.Ancestor a f) : Accepted k.visits a := by
  have hparent : ∀ {g b : CallableId}, Accepted k.visits g → s'.table.parent? g = some b → Accepted k.visits b := by
    intro g b hg hp
    rw [Table.parent?, h.get?_before hs hg] at hp
    exact hk.accepted_parent? hp
  induction hanc using Relation.TransGen.head_induction_on with
  | single hp => exact hparent hf hp
  | head hp _ ih => exact ih (hparent hf hp)

/-! ### Seen again -/

/-- Whether a request is the accepted one seen again does not depend on where the analysis began. -/
theorem repeatedBy (h : Beside m₀ k opened s s') (hk : k.Accounted) (hs : s.Accounted) {first : Visit}
    (hfirst : first ∈ s.visits) (l : Option Location) :
    first.repeatedBy s'.table l s'.traversal.current? = first.repeatedBy s.table l s.traversal.current? := by
  have hcurrent : s'.traversal.current? = s.traversal.current? := by rw [h.traversal, Traversal.current?_moved]
  rw [hcurrent]
  unfold Visit.repeatedBy
  cases ho : first.owner with
  | none => rfl
  | some g =>
    have hg : Accepted s.visits g := hs.enclosing first hfirst g (List.mem_of_mem_head? ho)
    cases hc : s.traversal.current? with
    | none => rfl
    | some f =>
      have hf : Accepted s.visits f := hs.candidates f (List.mem_of_mem_head? hc)
      have hanc : ∀ {a b : CallableId}, Accepted s.visits b → s'.table.isAncestor a b = s.table.isAncestor a b := by
        intro a b hb
        rw [Bool.eq_iff_iff, Table.isAncestor_iff, Table.isAncestor_iff, h.ancestor_iff hk hs hb]
      simp only [hanc hf, hanc hg]

/-- A request for who was accepted before is not the accepted one seen again. -/
theorem not_repeatedBy (h : Beside m₀ k opened s s') (hk : k.Accounted) (hs : s.Accounted) {first : Visit}
    (hfirst : first ∈ k.visits) (l : Option Location) :
    first.repeatedBy s'.table l s'.traversal.current? = false := by
  have hcurrent : s'.traversal.current? = s.traversal.current? := by rw [h.traversal, Traversal.current?_moved]
  rw [hcurrent, Bool.eq_false_iff]
  intro hrep
  simp only [Visit.repeatedBy, Bool.and_eq_true] at hrep
  obtain ⟨-, hrep⟩ := hrep
  cases ho : first.owner with
  | none => simp [ho] at hrep
  | some g =>
    cases hc : s.traversal.current? with
    | none => simp [hc, ho] at hrep
    | some f =>
      have hg : Accepted k.visits g := hk.enclosing first hfirst g (List.mem_of_mem_head? ho)
      have hf : Accepted s.visits f := hs.candidates f (List.mem_of_mem_head? hc)
      simp only [hc, ho, Bool.or_eq_true, beq_iff_eq, Table.isAncestor_iff] at hrep
      obtain (rfl | hanc) | hanc := hrep
      · exact h.apart g hf hg
      · exact h.apart g (hs.accepted_ancestor ((h.ancestor_iff hk hs hf).1 hanc)) hg
      · exact h.apart f hf (h.accepted_ancestor hk hs hg hanc)

end Beside

end Session

end Independence
