import Independence.Proofs.Evaluation.Progress
import Independence.Proofs.Report.Reporter
import Independence.Analysis.Capture
/-!
# Announced writes

An evaluation keeps only the last write to each binding, but it announces every write to an object that it did not
create itself, before the write is stored. So of each write that it kept there is either the object among those
created, which only grow, or the event. A capture reports exactly the side effects among the events, in order.
-/

namespace Independence

/-! ## Writes and events -/

/-- The write to the binding is to an object that was created, or it was announced where it was made. -/
def WriteSite.Announced (site : WriteSite) (b : Binding) (created : ObjectSet) (es : List Event) : Prop :=
  b.object ∈ created ∨ ∃ l, site.location = some l ∧ .sideEffect ⟨.wroteProperty b, some l⟩ ∈ es

/-- All writes so far were announced, as far as they had to be. -/
def Run.Announces (r : Run (List Event)) : Prop :=
  ∀ (b : Binding) (site : WriteSite), r.writes[b]? = some site → site.Announced b r.created r.observer

variable {r : Run (List Event)}

theorem Run.Announces.observe (h : r.Announces) (e : Event) : (r.observe .trace e).Announces := fun b site hb =>
  (h b site hb).imp_right fun ⟨l, hl, hmem⟩ => ⟨l, hl, List.mem_append_left [e] hmem⟩

theorem Run.Announces.allocate (h : r.Announces) : r.allocate.Announces := fun b site hb =>
  (h b site hb).imp_left fun hc => Std.ExtTreeSet.mem_insert.2 (.inr hc)

/-- A write that is stored after its announcement is announced, and those to other bindings stay so. -/
theorem Run.Announces.store (h : r.Announces) {b : Binding} {l : Location} (hb : r.Announced .trace b l) (v : Value) :
    Run.Announces { r with writes := r.writes.insert b ⟨some l, some v⟩ } := by
  intro c site hc
  simp only [Std.ExtTreeMap.getElem?_insert] at hc
  split at hc
  · next heq =>
    rw [Std.compare_eq_iff_eq] at heq
    subst heq
    cases hc
    rcases hb with hcreated | ⟨q, hq⟩
    · exact .inl hcreated
    · refine .inr ⟨l, rfl, ?_⟩
      simp [hq, Run.observe, Observer.trace]
  · exact h c site hc

theorem progress_announces : Progress .trace (fun _ => True) fun r s => r.Announces → s.Announces where
  refl _ h := h
  trans hrs hst h := hst (hrs h)
  shown _ e _ _ h := h.observe e
  stored _ _ _ v _ _ hb h := h.store hb v
  allocated _ h := h.allocate
  noted _ _ h := h
  framed _ _ c hin h := (hin (h.observe (.enter c))).observe (.exit c)

/-- Every write of an evaluation is to an object that it created, or it is among the events. -/
theorem Model.announced_of_traceOf {m m' : Model} {call : Call} {e : Effects} {es : List Event}
    (h : m.traceOf call = .ok e (es, m')) {b : Binding} {site : WriteSite} (hb : e.writes[b]? = some site) :
    site.Announced b e.created es := by
  have hall := progress_announces.invoke (m := m) (fun g _ => g.body.allObjects_of_forall fun _ => trivial)
    (maxCallDepth + 1) call.callee call.location (.start [] m.nextObject)
    fun c site hc => by simp [Run.start] at hc
  simp only [traceOf, Model.evaluate] at h
  cases hi : invoke m .trace (maxCallDepth + 1) call.callee call.location (.start [] m.nextObject) with
  | error x r =>
    rw [hi] at h
    cases h
  | ok flow r =>
    rw [hi] at h hall
    cases h
    exact hall b site hb

/-! ## What a capture reports -/

/-- The diagnostics of the side effects among the events, in order. -/
def disclosures (name : String) (es : List Event) : List Diagnostic := es.filterMap fun
  | .sideEffect e => some (e.diagnostic name)
  | .register _ | .read _ _ | .enumerate _ _ | .enter _ | .exit _ => none

theorem mem_disclosures {name : String} {es : List Event} {e : SideEffect} (h : .sideEffect e ∈ es) :
    e.diagnostic name ∈ disclosures name es :=
  List.mem_filterMap.2 ⟨.sideEffect e, h, rfl⟩

theorem reporter_captureObserver (name : String) (es : List Event) (w : Watch) :
    ((captureObserver name).after w es).reporter = w.reporter.reportAll (disclosures name es) := by
  induction es generalizing w with
  | nil => rfl
  | cons e es ih =>
    refine (ih _).trans ?_
    cases e <;> rfl

end Independence
