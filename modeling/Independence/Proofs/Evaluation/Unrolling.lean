import Independence.Proofs.Evaluation.Trace
/-!
# Loops unrolled

A loop does what copies of its block do, one after the other. So a program without loops, with every loop replaced by
copies at every depth, is evaluated as the program itself is, under every observer: with the same events, the same
outcome and the same numbers for new objects. Iterations may be left early and may allocate; the copies are left at the
same place and allocate the same.
-/

namespace Independence

variable {σ α : Type} {m : Model} {o : Observer σ} {run : CallableId → Location → Eval σ Flow}

/-! ## Sequences of computations -/

theorem Flow.andThen_assoc (x y z : Eval σ Flow) :
    Flow.andThen (Flow.andThen x y) z = Flow.andThen x (Flow.andThen y z) := by
  funext r
  simp only [Flow.andThen]
  cases x r with
  | ok flow s => cases flow <;> rfl
  | error e s => rfl

theorem Flow.bind_andThen (x : Eval σ α) (k : α → Eval σ Flow) (y : Eval σ Flow) :
    Flow.andThen (x >>= k) y = x >>= fun a => Flow.andThen (k a) y := by
  funext r
  simp only [Flow.andThen, bind, EStateM.bind]
  cases x r <;> rfl

namespace Body

/-! ## Bodies without loops -/

/-- One body after the other. -/
def append : Body → Body → Body
  | .done, last => last
  | .op first rest, last => .op first (rest.append last)
  | .loop times block rest, last => .loop times block (rest.append last)
  | .ifEquals target key value span block rest, last => .ifEquals target key value span block (rest.append last)

instance : Append Body := ⟨append⟩

/-- So many copies of a body, one after the other. -/
def copies (b : Body) : Nat → Body
  | 0 => .done
  | times + 1 => b ++ b.copies times

/-- The body with copies of its block in place of each loop, at every depth. -/
def unroll : Body → Body
  | .done => .done
  | .op first rest => .op first rest.unroll
  | .loop times block rest => block.unroll.copies times ++ rest.unroll
  | .ifEquals target key value span block rest => .ifEquals target key value span block.unroll rest.unroll

/-- There is no loop in the body, at no depth. -/
def LoopFree : Body → Prop
  | .done => True
  | .op _ rest => rest.LoopFree
  | .loop _ _ _ => False
  | .ifEquals _ _ _ _ block rest => block.LoopFree ∧ rest.LoopFree

theorem LoopFree.append {a b : Body} (ha : a.LoopFree) (hb : b.LoopFree) : (a ++ b).LoopFree := by
  induction a with
  | done => exact hb
  | op first rest ih => exact ih ha
  | loop times block rest => exact ha.elim
  | ifEquals t k v s block rest _ ih => exact ⟨ha.1, ih ha.2⟩

theorem LoopFree.copies {b : Body} (hb : b.LoopFree) (times : Nat) : (b.copies times).LoopFree := by
  induction times with
  | zero => trivial
  | succ times ih => exact hb.append ih

theorem loopFree_unroll (b : Body) : b.unroll.LoopFree := by
  induction b with
  | done => trivial
  | op first rest ih => exact ih
  | loop times block rest ihb ihr => exact (ihb.copies times).append ihr
  | ifEquals t k v s block rest ihb ihr => exact ⟨ihb, ihr⟩

example : (loop 2 (loop 2 (op .allocate done) (op (.return .undefined) done)) done).unroll =
    op .allocate (op .allocate (op (.return .undefined) (op .allocate (op .allocate (op (.return .undefined) done))))) :=
  rfl

/-! ## What they do -/

theorem run_append (a b : Body) :
    (a ++ b).run m o run = Flow.andThen (a.run m o run) (b.run m o run) := by
  induction a with
  | done => rfl
  | op first rest ih => exact (congrArg _ ih).trans (Flow.andThen_assoc _ _ _).symm
  | loop times block rest _ ih => exact (congrArg _ ih).trans (Flow.andThen_assoc _ _ _).symm
  | ifEquals t k v s block rest _ ih =>
    simp only [Body.run, Flow.bind_andThen]
    refine congrArg (t.holds m o k v s >>= ·) (funext fun c => ?_)
    -- What comes after a branch comes after it on both ways.
    cases c with
    | true => exact (congrArg (Flow.andThen _) ih).trans (Flow.andThen_assoc _ _ _).symm
    | false => exact ih

theorem run_copies (b : Body) (times : Nat) :
    (b.copies times).run m o run = Flow.iterate (b.run m o run) times := by
  induction times with
  | zero => rfl
  | succ times ih => rw [copies, run_append, ih, Flow.iterate_succ]

theorem run_unroll (b : Body) : b.unroll.run m o run = b.run m o run := by
  induction b with
  | done => rfl
  | op first rest ih => simp only [unroll, Body.run, ih]
  | loop times block rest ihb ihr => rw [unroll, run_append, run_copies, ihb, ihr, Body.run]
  | ifEquals t k v s block rest ihb ihr => simp only [unroll, Body.run, ihb, ihr]

/-- A body does not depend on the functions of the program, except through the calls. -/
theorem run_with_functions (functions : List Function) (b : Body) :
    b.run { m with functions } o run = b.run m o run := by
  induction b with
  | done => rfl
  | op first rest ih =>
    have hfirst : first.run { m with functions } o run = first.run m o run := by cases first <;> rfl
    simp only [Body.run, hfirst, ih]
  | loop times block rest ihb ihr => simp only [Body.run, ihb, ihr]
  | ifEquals t k v s block rest ihb ihr =>
    have hholds : t.holds { m with functions } o k v s = t.holds m o k v s := rfl
    simp only [Body.run, hholds, ihb, ihr]

end Body

/-! ## Programs -/

def Function.unroll (f : Function) : Function := { f with body := f.body.unroll }

namespace Model

/-- The program with copies in place of all loops. -/
def unroll (m : Model) : Model := { m with functions := m.functions.map Function.unroll }

/-- No body of the program has a loop. -/
def LoopFree (m : Model) : Prop := ∀ f ∈ m.functions, f.body.LoopFree

theorem loopFree_unroll (m : Model) : m.unroll.LoopFree := by
  intro f hf
  obtain ⟨g, -, rfl⟩ := List.mem_map.1 hf
  exact g.body.loopFree_unroll

theorem function?_unroll (m : Model) (f : CallableId) : m.unroll.function? f = (m.function? f).map Function.unroll :=
  List.getElem?_map

theorem signature?_unroll (m : Model) (f : CallableId) : m.unroll.signature? f = m.signature? f := by
  rw [signature?, signature?, function?_unroll, Option.map_map]
  rfl

theorem invoke_unroll (m : Model) (o : Observer σ) (calls : Nat) : invoke m.unroll o calls = invoke m o calls := by
  -- The bodies that a body calls have one call less left.
  induction calls with
  | zero => rfl
  | succ calls ih =>
    funext f l
    simp only [invoke, function?_unroll]
    cases m.function? f with
    | none => rfl
    | some g =>
      have hbody : g.unroll.body.run m.unroll o (invoke m.unroll o calls) = g.body.run m o (invoke m o calls) := by
        rw [ih]
        exact (Body.run_with_functions _ _).trans (Body.run_unroll _)
      simp only [Option.map_some, hbody]

/-- Without its loops a program is evaluated as before and becomes what it became before, without the loops. -/
theorem evaluate_unroll (o : Observer σ) (call : Call) (s : σ) (m : Model) :
    Model.evaluate o call (s, m.unroll) = mapOutcome id (Prod.map id unroll) (Model.evaluate o call (s, m)) := by
  have hnext : m.unroll.nextObject = m.nextObject := rfl
  simp only [Model.evaluate, invoke_unroll, hnext]
  cases invoke m o (maxCallDepth + 1) call.callee call.location (.start s m.nextObject) <;> rfl

end Model

end Independence
