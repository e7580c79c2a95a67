import Independence.Proofs.Analysis.Steps
import Independence.Analysis.Checker
/-!
# Runs along a preorder

If single steps lead along a preorder on sessions, so does a whole run. In discovery these steps are the captures of
candidates, the reports, and what is between them: notes, frames and commits. Its reports go through the capture of a
candidate, through a request that is put aside or refused, or through the check that no frame is open. In verification the
steps are reports and replays.
-/

namespace Independence

variable {m α : Type} [Evaluator m] {setup : Setup}

/-! ## The diagnostics of discovery -/

/-- A diagnostic as discovery reports them. -/
structure Diagnostic.OfDiscovery (d : Diagnostic) : Prop where
  warns : d.severity = .warning ↔ d.code = .sideEffect
  conflict : d.code ≠ .writeConflict

theorem Diagnostic.OfDiscovery.fatal {c : Code} (hwarns : c ≠ .sideEffect) (hconflict : c ≠ .writeConflict)
    (message : String) (location : Option Location) : (Diagnostic.fatal c message location).OfDiscovery :=
  ⟨⟨nofun, fun h => absurd h hwarns⟩, hconflict⟩

theorem SideEffect.ofDiscovery (e : SideEffect) (name : String) : (e.diagnostic name).OfDiscovery :=
  ⟨⟨fun _ => rfl, fun _ => rfl⟩, nofun⟩

theorem Analysis.ofDiscovery_duplicateDiagnostic (name : String) (first : Visit) (location : Option Location) :
    (duplicateDiagnostic name first location).OfDiscovery := by
  unfold duplicateDiagnostic
  split <;> exact ⟨⟨nofun, nofun⟩, nofun⟩

/-- Nothing changed of what records and reports say, and of the evaluator not more than a commit or a rollback changes. -/
structure Session.Undisturbed (s t : Session m) : Prop where
  table : t.table = s.table
  reporter : t.reporter = s.reporter
  evaluator : t.evaluator = s.evaluator ∨ (∃ e, t.evaluator = (Evaluator.commit e s.evaluator).1) ∨
    ∃ undo, t.evaluator = Evaluator.rollback s.evaluator undo

namespace Analysis.Follows

variable {T : Session m → Session m → Prop} [IsPreorder (Session m) T]

omit [Evaluator m] in
theorem fail {d : Diagnostic} (h : Follows T (report d)) (x : Failure) : Follows T (fail d x : Analysis m α) :=
  .bind h fun _ => .throw x

/-! ## Discovery -/

section Discovery
variable (undisturbed : ∀ {s t : Session m}, s.Undisturbed t → T s t)
  (reported : ∀ {d : Diagnostic}, d.OfDiscovery → Follows T (report d))
include undisturbed

omit [IsPreorder (Session m) T] in
theorem note (f : CallableId) (request : Request) (outcome : Outcome) :
    Follows T (note f request outcome : Analysis m Unit) :=
  fun _ => Ends.modified (undisturbed ⟨rfl, rfl, .inl rfl⟩)

include reported

theorem again (f : CallableId) (first : Visit) (request : Request) : Follows T (again setup f first request) := by
  refine .get fun s => ?_
  split
  · exact Follows.note undisturbed _ _ _ s
  · refine Follows.bind (reported (ofDiscovery_duplicateDiagnostic _ _ _)) (fun decision => ?_) s
    refine .bind (Follows.note undisturbed _ _ _) fun _ => ?_
    cases decision with
    | abort => exact .throw _
    | proceed => exact .pure ()

variable (captured : ∀ c, Follows T (captureNew setup c))
include captured

/-- What captures and reports follow, the processing of a request follows. -/
theorem process (levels : Nat) (request : Request) : Follows T (process setup levels request) := by
  induction levels using Nat.strongRecOn generalizing request with
  | ind levels ih =>
    unfold Analysis.process
    refine .get fun s => ?_
    split
    · exact Follows.fail (reported (.fatal (by decide) (by decide) _ _)) _ s
    · next f _ =>
      split
      · exact Follows.again undisturbed reported f _ request s
      · refine Follows.bind (Follows.note undisturbed _ _ _) (fun _ => ?_) s
        cases levels with
        | zero => exact .get fun t => Follows.fail (reported (.fatal (by decide) (by decide) _ _)) _ t
        | succ levels =>
          -- To enter and to leave a frame changes nothing that `T` depends on, and neither does a commit undone.
          have hbetween : ∀ {s s' t t' : Session m}, s.Undisturbed s' → t.Undisturbed t' → T s' t → T s t' :=
            fun h h' hT => trans_of T (undisturbed h) (trans_of T hT (undisturbed h'))
          refine fun t => Ends.inFrame (Ends.mono (Follows.bind (T := T) (captured _) ?rest _)
            (fun _ _ => hbetween ⟨rfl, rfl, .inl rfl⟩ ⟨rfl, rfl, .inl rfl⟩)
            fun _ _ => hbetween ⟨rfl, rfl, .inl rfl⟩ ⟨rfl, rfl, .inl rfl⟩)
          rintro ⟨r, requests⟩
          simp only
          split
          · exact .pure _
          · have hmark : Follows T (markCommitted : Analysis m BaselineId) := fun u =>
              undisturbed ⟨rfl, rfl, .inl rfl⟩
            have hall := Follows.forM (T := T) (fun request => ih levels (Nat.lt_succ_self _) request) requests
            refine .bind hmark fun _ u => Ends.committed ((hall _).mono ?_ ?_)
            · exact fun _ _ => hbetween ⟨rfl, rfl, .inr (.inl ⟨_, rfl⟩)⟩ ⟨rfl, rfl, .inr (.inr ⟨_, rfl⟩)⟩
            · exact fun _ _ => hbetween ⟨rfl, rfl, .inr (.inl ⟨_, rfl⟩)⟩ ⟨rfl, rfl, .inr (.inr ⟨_, rfl⟩)⟩

theorem drain (requests : List Request) : Follows T (drain setup requests) := by
  induction requests with
  | nil => exact .pure ()
  | cons request queue ih =>
    refine .bind (fun s => Ends.modified (undisturbed ⟨rfl, rfl, .inl rfl⟩)) fun _ => .get fun s => ?_
    exact Follows.bind (T := T) (Follows.process undisturbed reported captured _ request) (fun _ => ih) s

theorem discover : Follows T (discover setup) := by
  refine .get fun s => Follows.bind (Follows.drain undisturbed reported captured s.queue) (fun _ => ?_) s
  refine .get fun t => ?_
  simp only
  split
  · exact Follows.pure (T := T) () t
  · exact Follows.fail (reported (.fatal (by decide) (by decide) _ _)) _ t

end Discovery

/-! ## Verification -/

section Verification
variable (reported : ∀ d : Diagnostic, Follows T (report d)) (replayed : ∀ r, Follows T (replay setup r))
include reported

theorem reportAbrupt (r : Record) : Follows T (reportAbrupt setup r) := by
  unfold Analysis.reportAbrupt
  split
  · exact .get fun s => Follows.bind (reported _) (fun _ => .pure true) s
  · exact .pure false
  · exact .pure false

theorem checkCompletions : Follows T (checkCompletions setup) := by
  refine .get fun s => Follows.bind (.mapM (Follows.reportAbrupt reported) s.table.records) (fun abrupt => ?_) s
  simp only
  split
  · exact .throw _
  · exact .pure PUnit.unit

omit [Evaluator m] in
theorem reportConflicts (conflicts : List Conflict) : Follows T (reportConflicts conflicts) := by
  refine .bind (.forM (fun c => ?_) conflicts) fun _ => .pure _
  exact .bind (reported c.diagnostic) fun _ => .pure PUnit.unit

include replayed

theorem verify : Follows T (verify setup) := by
  refine .bind (.checkCompletions reported) fun _ => ?_
  refine .bind (.get fun s => Follows.mapM replayed s.table.records s) fun observed => ?_
  exact .get fun s => Follows.pure (T := T) _ s

/-- What discovery, reports and replays follow, the analysis follows. -/
theorem analyse (discovered : Follows T (Analysis.discover setup)) : Follows T (analyse setup) := by
  refine .bind discovered fun _ => .bind (.verify reported replayed) fun conflicts => ?_
  refine .bind (.reportConflicts reported conflicts) fun decision => ?_
  cases decision with
  | abort => exact .throw _
  | proceed => exact .pure ()

end Verification

end Analysis.Follows

end Independence
