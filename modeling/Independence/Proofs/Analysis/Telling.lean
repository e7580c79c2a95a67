import Independence.Proofs.Analysis.Following
import Independence.Proofs.Analysis.Processing
/-!
# What discovery reports

Discovery warns of side effects and of nothing else, and it leaves conflicts to verification. Whatever it reports, it
forgets none of the reports before.
-/

namespace Independence

variable {s t u : Session Model} {setup : Setup} {α : Type}

/-! ## Telling -/

/-- From `s` to `t` only diagnostics of discovery were reported. -/
def Session.Tells (s t : Session Model) : Prop :=
  ∃ ds : List Diagnostic, (∀ d ∈ ds, d.OfDiscovery) ∧ t.reporter = s.reporter.reportAll ds

instance : IsPreorder (Session Model) Session.Tells where
  refl s := ⟨[], by simp, rfl⟩
  trans := by
    rintro s t u ⟨ds, hds, ht⟩ ⟨es, hes, hu⟩
    refine ⟨ds ++ es, fun d hd => ?_, by rw [hu, ht, Reporter.reportAll_append]⟩
    exact (List.mem_append.1 hd).elim (hds d) (hes d)

theorem Session.Undisturbed.functions (h : s.Undisturbed t) : t.evaluator.functions = s.evaluator.functions := by
  rcases h.evaluator with he | ⟨e, he⟩ | ⟨undo, he⟩ <;> rw [he] <;> rfl

theorem Session.Undisturbed.tells (h : s.Undisturbed t) : s.Tells t := ⟨[], by simp, h.reporter⟩

namespace Analysis

theorem report_tells {d : Diagnostic} (hd : d.OfDiscovery) : Follows Session.Tells (report d) :=
  fun s => Ends.reported ⟨[d], by simpa using hd, rfl⟩

theorem evaluateWatched_tells (name : String) (call : Call) : Follows Session.Tells (evaluateWatched name call) := by
  intro s
  have hobserver := Model.observer_evaluate (o := captureObserver name)
    (I := fun w : Watch => ∃ ds : List Diagnostic, (∀ d ∈ ds, d.OfDiscovery) ∧ w.reporter = s.reporter.reportAll ds)
    (fun e w hw => ?_) call (s := ⟨s.reporter, s.traversal, false⟩) ⟨[], by simp, rfl⟩ s.evaluator
  · have he : Evaluator.evaluate (captureObserver name) call (⟨s.reporter, s.traversal, false⟩, s.evaluator) =
      Model.evaluate (captureObserver name) call (⟨s.reporter, s.traversal, false⟩, s.evaluator) := rfl
    simp only [Ends, evaluateWatched, he]
    cases hx : Model.evaluate (captureObserver name) call (⟨s.reporter, s.traversal, false⟩, s.evaluator) <;>
      rw [hx] at hobserver <;> exact hobserver
  · cases e with
    | sideEffect e =>
      obtain ⟨ds, hds, hw⟩ := hw
      refine ⟨ds ++ [e.diagnostic name], fun d hd => ?_, ?_⟩
      · rcases List.mem_append.1 hd with hd | hd
        · exact hds d hd
        · exact List.mem_singleton.1 hd ▸ e.ofDiscovery name
      · rw [Reporter.reportAll_append, ← hw]
        rfl
    | _ => exact hw

theorem effectsOf_tells (f : CallableId) (name : String) (signature : Signature) (call : Call) :
    Follows Session.Tells (effectsOf f name signature call) := by
  refine .bind (evaluateWatched_tells name call) ?_
  rintro ⟨outcome, escalated⟩
  cases outcome with
  | ok e => exact .pure e
  | error e =>
    have hfail : Follows Session.Tells (fail (.fatal .evaluationFailed
        s!"could not evaluate optimized function {name}: {e.message}" (e.location? <|> some signature.location))
        (.evaluation e) : Analysis Model Effects) :=
      .fail (report_tells (.fatal (by decide) (by decide) _ _)) _
    cases e with
    | aborted =>
      cases escalated with
      | true => exact .throw _
      | false => exact hfail
    | _ => exact hfail

theorem captureNew_tells (setup : Setup) (c : Candidate) : Follows Session.Tells (captureNew setup c) := by
  have hfail : ∀ {α : Type} {d : Diagnostic} (x : Failure) (s : Session Model), d.OfDiscovery →
      (fail d x : Analysis Model α).Ends s (fun _ => s.Tells) fun _ => s.Tells := fun x s hd =>
    Follows.fail (report_tells hd) x s
  refine .bind (.get fun s => ?_) fun r => .get fun s => ?_
  · simp only
    split
    · exact hfail _ s (.fatal (by decide) (by decide) _ _)
    · split
      · exact hfail _ s (.fatal (by decide) (by decide) _ _)
      · split
        · exact hfail _ s ⟨⟨nofun, nofun⟩, nofun⟩
        · exact Ends.set (Follows.bind (effectsOf_tells _ _ _ _) (fun e => .pure _) _)
  · split
    · exact Follows.throw _ s
    · exact Ends.set (Ends.pure (refl_of Session.Tells s))

theorem process_tells (setup : Setup) (levels : Nat) (request : Request) :
    Follows Session.Tells (process setup levels request) :=
  .process Session.Undisturbed.tells report_tells (captureNew_tells setup) levels request

theorem drain_tells (setup : Setup) (requests : List Request) : Follows Session.Tells (drain setup requests) :=
  .drain Session.Undisturbed.tells report_tells (captureNew_tells setup) requests

theorem discover_tells (setup : Setup) : Follows Session.Tells (discover setup) :=
  .discover Session.Undisturbed.tells report_tells (captureNew_tells setup)

/-! ## Reports before the conflicts -/

/-- From `s` to `t` reports were only added, and none of them is of a conflict. -/
def Reports (s t : Session Model) : Prop := s.reporter.Precedes t.reporter

instance : IsPreorder (Session Model) Reports where
  refl s := refl_of Reporter.Precedes s.reporter
  trans _ _ _ h h' := trans_of Reporter.Precedes h h'

theorem Reports.of_tells (h : s.Tells t) : Reports s t := by
  obtain ⟨ds, hds, ht⟩ := h
  rw [Reports, ht]
  exact s.reporter.precedes_reportAll fun d hd => (hds d hd).conflict

/-- Processing a request forgets no report and reports no conflict. -/
theorem process_reports (setup : Setup) (levels : Nat) (request : Request) :
    Follows Reports (process setup levels request) :=
  fun s => (process_tells setup levels request s).mono (fun _ _ => .of_tells) fun _ _ => .of_tells

theorem drain_reports (setup : Setup) (requests : List Request) : Follows Reports (drain setup requests) :=
  fun s => (drain_tells setup requests s).mono (fun _ _ => .of_tells) fun _ _ => .of_tells

theorem discover_reports (setup : Setup) : Follows Reports (discover setup) :=
  fun s => (discover_tells setup s).mono (fun _ _ => .of_tells) fun _ _ => .of_tells

end Analysis

end Independence
