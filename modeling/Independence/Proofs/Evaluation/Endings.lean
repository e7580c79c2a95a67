import Independence.Proofs.Evaluation.Course
import Independence.Proofs.Program.Objects
/-!
# How evaluations end

A throw leaves every loop, every branch and every caller; a return leaves the body it stands in and no caller; a throw
that happens on some paths only is remembered. So the completion of an evaluation can be read off its chronicle: it is
abrupt if a throw is reached, and otherwise has the value that the body of the callee itself returned.
-/

namespace Independence

namespace Chronicle

def Step.throw? : Step → Option Span
  | .op (.throw span) => some span
  | .op _ | .loop _ | .branch _ _ _ _ | .event _ => none

def Step.return? : Step → Option Value
  | .op (.return v) => some v
  | .op _ | .loop _ | .branch _ _ _ _ | .event _ => none

def Ending.threw? : Ending → Option Abrupt
  | .flow (.threw a) => some a
  | .flow .next | .flow (.returned _) | .failed => none

def Ending.returned? : Ending → Option Value
  | .flow (.returned v) => some v
  | .flow .next | .flow (.threw _) | .failed => none

/-- Where throws are reached, in order. -/
def thrown (c : Chronicle) : List Span := c.filterMap (·.step.throw?)

/-- The values that bodies return while so many bodies are running, in order. -/
def returnsAt (depth : Nat) (c : Chronicle) : List Value :=
  c.filterMap fun x => if x.calls.length = depth then x.step.return? else none

/-- The ends of all bodies of `calls`. -/
def closing : List CallableId → Chronicle
  | [] => []
  | f :: calls => ⟨.event (.exit f), f :: calls⟩ :: closing calls

/-- The completion of an evaluation with this chronicle. What the body of the evaluated callable itself returns is what
is returned while one body is running. -/
def completion (m : Model) (c : Chronicle) : Completion :=
  let value := (returnsAt 1 c).head?.getD .undefined
  match thrown c with
  | span :: _ => .abrupt ⟨some (m.location span)⟩
  | [] => match mayThrows c with
    | span :: _ => .possiblyAbrupt value ⟨some (m.location span)⟩
    | [] => .normal value

variable {m : Model} {more depth : Nat} {f : CallableId} {calls : List CallableId} {c d inner : Chronicle}
  {ending : Ending}

@[simp] theorem thrown_append (c d : Chronicle) : thrown (c ++ d) = thrown c ++ thrown d := List.filterMap_append

theorem thrown_closing (calls : List CallableId) : thrown (closing calls) = [] := by
  induction calls with
  | nil => rfl
  | cons f calls ih => simpa [closing, thrown, Step.throw?] using ih

theorem thrown_called (f : CallableId) (calls : List CallableId) (inner : Chronicle) :
    thrown (called f calls inner) = thrown inner := by
  simp [called, thrown, Step.throw?]

@[simp] theorem returnsAt_append (depth : Nat) (c d : Chronicle) :
    returnsAt depth (c ++ d) = returnsAt depth c ++ returnsAt depth d := List.filterMap_append

theorem thrown_cons_of_isPlain {step : Step} (h : step.isPlain = true) (calls : List CallableId) (c : Chronicle) :
    thrown (⟨step, calls⟩ :: c) = thrown c := by
  have hstep : step.throw? = none := by
    cases step with
    | op op => cases op <;> first | rfl | cases h
    | _ => rfl
  simp [thrown, hstep]

theorem returnsAt_cons_of_isPlain {step : Step} (h : step.isPlain = true) (calls : List CallableId) (c : Chronicle) :
    returnsAt depth (⟨step, calls⟩ :: c) = returnsAt depth c := by
  have hstep : step.return? = none := by
    cases step with
    | op op => cases op <;> first | rfl | cases h
    | _ => rfl
  simp [returnsAt, hstep]

theorem Ending.threw?_of_resumes (h : ending.resumes = true) : ending.threw? = none := by
  cases ending with
  | flow flow => cases flow <;> first | rfl | cases h
  | failed => rfl

theorem Ending.returned?_of_not_resumes (h : ending.resumes = false) : ending.returned? = none := by
  cases ending with
  | flow flow => cases flow <;> first | rfl | cases h
  | failed => rfl

/-! ## Throws -/

/-- A body that does not throw has reached no throw, in no call. -/
theorem Course.thrown_eq_nil (h : Course m more calls c ending) (hending : ending.threw? = none) : thrown c = [] := by
  induction h with
  | done | failed => rfl
  | throws span => cases hending
  | returns v => rfl
  | plain hstep _ ih => rw [thrown_cons_of_isPlain hstep, ih hending]
  | call f _ hresumes _ ihinner ih =>
    rw [thrown_append, thrown_called, ihinner (Ending.threw?_of_resumes hresumes), ih hending, List.append_nil]
  | leave f _ _ ih => rw [thrown_called, ih hending]

/-- After the throw that a body ends with nothing happens any more but that all running bodies end. -/
theorem Course.throw_last (h : Course m more calls c ending) {a : Abrupt} (hending : ending.threw? = some a) :
    ∃ before span stack, a = ⟨some (m.location span)⟩ ∧ thrown before = [] ∧
      c ++ closing calls = before ++ ⟨.op (.throw span), stack⟩ :: closing stack := by
  induction h with
  | done | failed | returns v => cases hending
  | @throws more calls span =>
    cases hending
    exact ⟨[], span, calls, rfl, rfl, rfl⟩
  | @plain more calls step es ending hstep _ ih =>
    obtain ⟨before, span, stack, ha, hbefore, heq⟩ := ih hending
    refine ⟨⟨step, calls⟩ :: before, span, stack, ha, ?_, congrArg _ heq⟩
    rw [thrown_cons_of_isPlain hstep, hbefore]
  | @call more calls f inner es ended ending hinner hresumes _ _ ih =>
    obtain ⟨before, span, stack, ha, hbefore, heq⟩ := ih hending
    refine ⟨called f calls inner ++ before, span, stack, ha, ?_, ?_⟩
    · rw [thrown_append, thrown_called, hinner.thrown_eq_nil (Ending.threw?_of_resumes hresumes), hbefore]
      rfl
    · rw [List.append_assoc, heq, List.append_assoc]
  | @leave more calls f inner ending _ _ ih =>
    -- The end of the call is the first of the ends that are left.
    obtain ⟨before, span, stack, ha, hbefore, heq⟩ := ih hending
    refine ⟨⟨.event (.enter f), f :: calls⟩ :: before, span, stack, ha, hbefore, ?_⟩
    simp only [called, List.cons_append, List.append_assoc, List.nil_append]
    exact congrArg _ heq

/-! ## Returns -/

/-- What is returned inside a call is not returned by its caller. -/
theorem returnsAt_called (hinner : Course m more (f :: calls) inner ending) :
    returnsAt calls.length (called f calls inner) = [] := by
  refine List.filterMap_eq_nil_iff.2 fun x hx => if_neg ?_
  have hlength := (suffix_of_mem_called hinner.suffix x hx).length_le
  rw [List.length_cons] at hlength
  omega

/-- A body reaches at most one return of its own, and returns the value of that one. -/
theorem Course.returnsAt_eq (h : Course m more calls c ending) :
    returnsAt calls.length c = ending.returned?.toList := by
  induction h with
  | done | failed => rfl
  | throws span => simp [returnsAt, Step.return?, Ending.returned?]
  | returns v => simp [returnsAt, Step.return?, Ending.returned?]
  | plain hstep _ ih => rw [returnsAt_cons_of_isPlain hstep, ih]
  | call f hinner _ _ _ ih => rw [returnsAt_append, returnsAt_called hinner, ih, List.nil_append]
  | leave f hinner hresumes _ =>
    rw [returnsAt_called hinner, Ending.returned?_of_not_resumes hresumes]
    rfl

/-- The return that a body ends with is its last step. -/
theorem Course.return_last (h : Course m more calls c ending) {v : Value} (hending : ending.returned? = some v) :
    ∃ before, returnsAt calls.length before = [] ∧ c = before ++ [⟨.op (.return v), calls⟩] := by
  induction h with
  | done | failed | throws span => cases hending
  | returns w =>
    cases hending
    exact ⟨[], rfl, rfl⟩
  | @plain more calls step es ending hstep _ ih =>
    obtain ⟨before, hbefore, rfl⟩ := ih hending
    refine ⟨⟨step, calls⟩ :: before, ?_, rfl⟩
    rw [returnsAt_cons_of_isPlain hstep, hbefore]
  | @call more calls f inner es ended ending hinner _ _ _ ih =>
    obtain ⟨before, hbefore, rfl⟩ := ih hending
    refine ⟨called f calls inner ++ before, ?_, (List.append_assoc ..).symm⟩
    rw [returnsAt_append, returnsAt_called hinner, hbefore]
    rfl
  | leave f _ hresumes =>
    rw [Ending.returned?_of_not_resumes hresumes] at hending
    cases hending

/-- A whole call of the callee is its start, its course, and the end of all running bodies. -/
theorem called_nil (f : CallableId) (inner : Chronicle) :
    called f [] inner = ⟨.event (.enter f), [f]⟩ :: (inner ++ closing [f]) := rfl

theorem Course.exists_throw (h : Course m more [f] inner ending) {a : Abrupt} (hending : ending.threw? = some a) :
    ∃ before span stack, a = ⟨some (m.location span)⟩ ∧ thrown (called f [] inner) = [span] ∧ thrown before = [] ∧
      called f [] inner = before ++ ⟨.op (.throw span), stack⟩ :: closing stack := by
  obtain ⟨before, span, stack, ha, hbefore, heq⟩ := h.throw_last hending
  have henter : thrown (⟨.event (.enter f), [f]⟩ :: before) = [] := by
    simpa [thrown, Step.throw?] using hbefore
  have hcalled : called f [] inner =
      ⟨.event (.enter f), [f]⟩ :: before ++ ⟨.op (.throw span), stack⟩ :: closing stack := congrArg _ heq
  refine ⟨_, span, stack, ha, ?_, henter, hcalled⟩
  rw [hcalled, thrown_append, henter, List.nil_append]
  exact congrArg (span :: ·) (thrown_closing stack)

theorem Course.exists_throw_of_mem (h : Course m more [f] inner ending) {span : Span}
    (hspan : span ∈ thrown (called f [] inner)) : ∃ before stack, thrown before = [] ∧
      called f [] inner = before ++ ⟨.op (.throw span), stack⟩ :: closing stack := by
  cases hending : ending.threw? with
  | none =>
    rw [thrown_called, h.thrown_eq_nil hending] at hspan
    cases hspan
  | some a =>
    obtain ⟨before, span', stack, -, hthrown, hbefore, heq⟩ := h.exists_throw hending
    rw [hthrown, List.mem_singleton] at hspan
    exact ⟨before, stack, hbefore, hspan ▸ heq⟩

theorem Course.exists_return (h : Course m more [f] inner ending) {v : Value} (hending : ending.returned? = some v) :
    ∃ before, returnsAt 1 before = [] ∧ called f [] inner = before ++ ⟨.op (.return v), [f]⟩ :: closing [f] := by
  obtain ⟨before, hbefore, rfl⟩ := h.return_last hending
  refine ⟨⟨.event (.enter f), [f]⟩ :: before, ?_, ?_⟩
  · simpa [returnsAt, Step.return?] using hbefore
  · rw [called_nil, List.append_assoc]
    rfl

theorem Course.returnsAt_one (h : Course m more [f] inner ending) :
    returnsAt 1 (called f [] inner) = ending.returned?.toList := by
  rw [← h.returnsAt_eq]
  simp [called, returnsAt, Step.return?]

/-- Without a throw the completion has the value returned, and the first possible throw if there was one. -/
theorem completion_of_thrown_eq_nil (hc : thrown c = []) : c.completion m =
    match firstMayThrow m c with
    | some a => .possiblyAbrupt ((returnsAt 1 c).head?.getD .undefined) a
    | none => .normal ((returnsAt 1 c).head?.getD .undefined) := by
  simp only [completion, hc, firstMayThrow]
  cases mayThrows c <;> rfl

end Chronicle

open Chronicle

variable {σ : Type} {m : Model} {o : Observer σ}

/-! ## Evaluations -/

/-- A whole call ends as its chronicle tells. -/
theorem Run.completion_of_course {more : Nat} {f : CallableId} {inner : Chronicle} {flow : Flow}
    (h : Course m more [f] inner (.flow flow)) {r : Run (σ × Chronicle)}
    (hmay : r.mayThrow = firstMayThrow m (called f [] inner)) :
    r.completion flow = (called f [] inner).completion m := by
  have hgoes : (Ending.flow flow).threw? = none → (called f [] inner).completion m =
      match r.mayThrow with
      | some a => .possiblyAbrupt ((Ending.flow flow).returned?.getD .undefined) a
      | none => .normal ((Ending.flow flow).returned?.getD .undefined) := by
    intro hending
    have hthrown := (thrown_called f [] inner).trans (h.thrown_eq_nil hending)
    rw [completion_of_thrown_eq_nil hthrown, h.returnsAt_one, ← hmay]
    cases (Ending.flow flow).returned? <;> rfl
  cases flow with
  | threw a =>
    obtain ⟨before, span, stack, rfl, hthrown, -⟩ := h.exists_throw rfl
    simp only [Run.completion, Chronicle.completion, hthrown]
  | next =>
    rw [hgoes rfl]
    cases hr : r.mayThrow <;> simp [Run.completion, hr, Ending.returned?]
  | returned v =>
    rw [hgoes rfl]
    cases hr : r.mayThrow <;> simp [Run.completion, hr, Ending.returned?]

/-- The chronicle of an evaluation that returns effects is a whole call of the callee, and tells the completion. -/
theorem Model.course_of_chronicle_ok {call : Call} {s t : σ} {m' : Model} {e : Effects} {log : Chronicle}
    (h : Model.chronicle o call ((s, []), m) = .ok e ((t, log), m')) : ∃ more flow inner,
      log = called call.callee [] inner ∧ Course m more [call.callee] inner (.flow flow) ∧
      e.result = log.completion m := by
  have hcall := Charts.invokeChronicled (m := m) (o := o) (maxCallDepth + 1) [] call.callee call.location
    (.start (s, []) m.nextObject)
  simp only [Model.chronicle] at h
  cases hi : invokeChronicled m o (maxCallDepth + 1) [] call.callee call.location (.start (s, []) m.nextObject) with
  | error x r =>
    rw [hi] at h
    cases h
  | ok flow r =>
    rw [hi] at h hcall
    simp only [EStateM.Result.ok.injEq, Prod.mk.injEq] at h
    obtain ⟨rfl, hobserver, -⟩ := h
    rcases hcall with ⟨hfailed, -⟩ | ⟨more, inner, -, hlogs, hcourse⟩
    · cases hfailed
    · have hmay : r.mayThrow = firstMayThrow m (called call.callee [] inner) := hlogs.mayThrow
      obtain rfl : log = called call.callee [] inner := (congrArg Prod.snd hobserver).symm.trans hlogs.log
      exact ⟨more, flow, inner, rfl, hcourse, Run.completion_of_course hcourse hmay⟩

/-- An evaluation that returns effects has a chronicle from which its completion can be read. It is abrupt if a throw
is reached, in whatever call, loop or branch, and nothing happens after that throw but that all running bodies end.
Otherwise it has the value that the body of the callee itself returns, which is the last thing that body does, and
undefined if that body does not return. It is possibly abrupt if a throw that happens on some paths only was reached, with
the location of the first one. -/
theorem Model.completion_classified {call : Call} {s t : σ} {m' : Model} {e : Effects}
    (h : Model.evaluate o call (s, m) = .ok e (t, m')) : ∃ log : Chronicle,
      Model.chronicle o call ((s, []), m) = .ok e ((t, log), m') ∧
      Model.evaluate o.recording call ((s, #[]), m) = .ok e ((t, (told log).toArray), m') ∧
      e.result = log.completion m ∧
      (∀ span ∈ thrown log, ∃ before stack, thrown before = [] ∧
        log = before ++ ⟨.op (.throw span), stack⟩ :: closing stack) ∧
      ∀ v ∈ returnsAt 1 log, ∃ before, returnsAt 1 before = [] ∧
        log = before ++ ⟨.op (.return v), [call.callee]⟩ :: closing [call.callee] := by
  have hrecording := Model.evaluate_recording_chronicle o call s [] m
  rw [Model.evaluate_chronicle o call s [] m] at h
  cases hx : Model.chronicle o call ((s, []), m) with
  | error x p =>
    rw [hx] at h
    cases h
  | ok e' p =>
    obtain ⟨⟨t', log⟩, n⟩ := p
    rw [hx] at h hrecording
    cases h
    obtain ⟨more, flow, inner, rfl, hcourse, hresult⟩ := Model.course_of_chronicle_ok hx
    refine ⟨_, rfl, hrecording, hresult, fun span hspan => hcourse.exists_throw_of_mem hspan, fun v hv => ?_⟩
    rw [hcourse.returnsAt_one, Option.mem_toList] at hv
    exact hcourse.exists_return hv

/-- The first function of the sample returns after a throw that happens on some paths only. What it returns is not what
the function that it calls returned before. The third function calls one that throws. -/
theorem Model.completion_classified_calling : ∃ (outer throwing : Effects) (m₁ m₂ : Model) (log₁ log₂ : Chronicle),
    Model.evaluate .silent (calling.callOf ⟨0⟩) ((), calling) = .ok outer ((), m₁) ∧
    Model.chronicle .silent (calling.callOf ⟨0⟩) (((), []), calling) = .ok outer (((), log₁), m₁) ∧
    thrown log₁ = [] ∧ mayThrows log₁ = [.ofLine 4] ∧ (returnsAt 1 log₁).map Value.text = ["true"] ∧
    (returnsAt 2 log₁).map Value.text = ["false"] ∧ outer.result = log₁.completion calling ∧
    Model.evaluate .silent (calling.callOf ⟨2⟩) ((), calling) = .ok throwing ((), m₂) ∧
    Model.chronicle .silent (calling.callOf ⟨2⟩) (((), []), calling) = .ok throwing (((), log₂), m₂) ∧
    thrown log₂ = [.ofLine 12] ∧ throwing.result = log₂.completion calling := by
  obtain ⟨outer, ⟨⟨⟨⟩, log₁⟩, m₁⟩, h₁, hlog₁⟩ := exists_ok
    (x := Model.chronicle .silent (calling.callOf ⟨0⟩) (((), []), calling))
    (fun _ p => decide (thrown p.1.2 = [] ∧ mayThrows p.1.2 = [.ofLine 4] ∧
      (returnsAt 1 p.1.2).map Value.text = ["true"] ∧ (returnsAt 2 p.1.2).map Value.text = ["false"]))
    (by decide +kernel)
  obtain ⟨throwing, ⟨⟨⟨⟩, log₂⟩, m₂⟩, h₂, hlog₂⟩ := exists_ok
    (x := Model.chronicle .silent (calling.callOf ⟨2⟩) (((), []), calling))
    (fun _ p => decide (thrown p.1.2 = [.ofLine 12])) (by decide +kernel)
  have houter : Model.evaluate .silent (calling.callOf ⟨0⟩) ((), calling) = .ok outer ((), m₁) := by
    rw [Model.evaluate_chronicle .silent _ () [], h₁]
    rfl
  have hthrowing : Model.evaluate .silent (calling.callOf ⟨2⟩) ((), calling) = .ok throwing ((), m₂) := by
    rw [Model.evaluate_chronicle .silent _ () [], h₂]
    rfl
  obtain ⟨log, hlog, -, hcompletion₁, -⟩ := completion_classified houter
  obtain ⟨log', hlog', -, hcompletion₂, -⟩ := completion_classified hthrowing
  rw [h₁] at hlog
  rw [h₂] at hlog'
  cases hlog
  cases hlog'
  obtain ⟨hthrown, hmay, hreturn, hinner⟩ := of_decide_eq_true hlog₁
  exact ⟨outer, throwing, m₁, m₂, log₁, log₂, houter, h₁, hthrown, hmay, hreturn, hinner, hcompletion₁, hthrowing, h₂,
    of_decide_eq_true hlog₂, hcompletion₂⟩

end Independence
