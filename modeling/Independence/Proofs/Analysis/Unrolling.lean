import Independence.Proofs.Analysis.Outcomes
import Independence.Proofs.Analysis.Translation
import Independence.Proofs.Evaluation.Unrolling
/-!
# Runs on programs without loops

A program without its loops is evaluated as before, and a commit does not look at bodies. So an analysis does not notice
that the loops are gone.
-/

namespace Independence

variable {m : Model}

/-- The program with copies in place of all loops, in place of the program. -/
def Model.unrolling : Evaluator.Translation Model Model where
  state := unroll
  undo := id
  signature? := signature?_unroll
  compositeRoot? _ _ := rfl
  evaluate o call s m := evaluate_unroll o call s m
  commit _ _ := rfl
  rollback _ _ := rfl

/-- A loop is copies of its block. The program with copies in place of every loop, at every depth of every body, has no
loop. Under every observer, those that keep all events included, it is evaluated as the program with loops is: with the
same effects or the same error, to the same state of the observer and the same next object. So a run finds the same: the
same result, the same table and visits however it ends, the same conflicts and reports, and it leaves the same program but
for the loops. -/
theorem Model.loops_are_copies (m : Model) :
    m.unroll.LoopFree ∧
      (∀ {σ : Type} (o : Observer σ) (call : Call) (s : σ),
        Model.evaluate o call (s, m.unroll) = mapOutcome id (Prod.map id unroll) (Model.evaluate o call (s, m))) ∧
      ∀ (c : Checker Model) (roots : List Request),
        let looping : Checker Model := { c with evaluator := m }
        let unrolled : Checker Model := { c with evaluator := m.unroll }
        (unrolled.run roots).1 = (looping.run roots).1 ∧
          unrolled.conflicts? roots = looping.conflicts? roots ∧
          unrolled.finished roots = { looping.finished roots with evaluator := (looping.finished roots).evaluator.unroll } ∧
          (unrolled.run roots).2 = { (looping.run roots).2 with evaluator := (looping.run roots).2.evaluator.unroll } := by
  refine ⟨m.loopFree_unroll, fun o call s => evaluate_unroll o call s m, fun c roots => ?_⟩
  intro looping unrolled
  have hrun : unrolled.run roots = Prod.map id (Checker.translate unrolling) (looping.run roots) :=
    looping.run_translate unrolling roots
  have hfind : Analysis.find unrolled.setup (unrolled.session roots) =
      mapOutcome id (Session.translate unrolling) (Analysis.find looping.setup (looping.session roots)) :=
    Analysis.Translates.bind (h := unrolling) (.discover looping.setup) (fun _ => .verify looping.setup)
      (looping.session roots)
  refine ⟨by rw [hrun]; rfl, ?_, looping.finished_translate unrolling roots, by rw [hrun]; rfl⟩
  simp only [Checker.conflicts?, hfind]
  cases Analysis.find looping.setup (looping.session roots) <;> rfl

end Independence
