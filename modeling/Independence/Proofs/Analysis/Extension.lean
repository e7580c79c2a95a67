import Independence.Proofs.Analysis.Lockstep
import Independence.Proofs.Analysis.Soundness
import Independence.Proofs.Analysis.Verdict
/-!
# Additional roots

Further roots behind the given ones do not change what was captured for these. They add records, and with them conflicts,
but no conflict goes away. So whoever finds no conflict among many roots has found none among the first of them.
-/

namespace Independence.Checker

variable {c : Checker Model} {roots : List Request} {s t : Session Model}

open Session (Beside)

/-- Discovery of the roots alone gets as far as among further roots, and their records come first there. -/
theorem Discovered.fewer (hw : c.evaluator.WellFormed) (hh : c.handler = none) {more : List Request}
    (hd : c.Discovered (roots ++ more) s) : ∃ t, c.Discovered roots t ∧ t.table.records <+: s.table.records := by
  have hidle : c.Idle (c.session (roots ++ more)) := idle_session hh _
  have hstart : c.Idle (c.session roots) := idle_session hh _
  obtain ⟨hok, herror⟩ := Analysis.drain_alike c.setup hw hidle.accounted rfl roots more hstart.amid hstart.accounted
    (hidle.beside hh roots)
  cases hx : Analysis.drain c.setup roots (c.session roots) with
  | error x t =>
    obtain ⟨t', hx', -⟩ := herror x t hx
    cases hx'.symm.trans hd.drain
  | ok _ t =>
    obtain ⟨t', ht, hx'⟩ := hok t hx
    have hmore := (Analysis.drain_follows c.setup more t').of_ok (hx'.symm.trans hd.drain)
    have hrecords : t'.table.records = t.table.records := by
      rw [ht.records, session, Session.place_start, List.map_id]
      rfl
    have hfirst : t.table.records <+: s.table.records := hrecords ▸ hmore.records
    exact ⟨t, .of_drain hw hx fun r hr => hd.completes r (hfirst.subset hr), hfirst⟩

/-- If a run gets as far as the check, so does the run of the first of its roots. Their records come first in its table,
and where they conflict it reports a conflict. -/
theorem fewer_roots (c : Checker Model) (roots more : List Request) (hw : c.evaluator.WellFormed) (hh : c.handler = none)
    (h : c.ReachesCheck (roots ++ more)) :
    c.ReachesCheck roots ∧ (c.finished roots).table.records <+: (c.finished (roots ++ more)).table.records ∧
      (∀ l, c.ConflictAt roots l → c.ConflictAt (roots ++ more) l) ∧
      ((∃ v, (c.run (roots ++ more)).1 = .ok v) → ∃ v, (c.run roots).1 = .ok v) := by
  obtain ⟨s, hs⟩ := h.discovered
  obtain ⟨t, ht, hfirst⟩ := hs.fewer hw hh
  have hembeds : t.table.Embeds c.evaluator s.table := fun r hr =>
    ⟨r, hfirst.subset hr, (ht.amid hw).discovering.corresponds_self hw hr⟩
  obtain ⟨hkept, hok⟩ := ht.compare hw hs hembeds
  obtain ⟨_, -, hverdict⟩ := ht.exists_verdict hw
  obtain ⟨_, -, hverdict'⟩ := hs.exists_verdict hw
  rw [hverdict.table, hverdict'.table]
  exact ⟨hverdict.reachesCheck, hfirst, hkept, hok⟩

/-- The sample where errors are let pass. -/
def lenientSample : Checker Model := { sample with settings := { recoverErrors := true } }

/-- The second function requested before the first one conflicts with it, and it still does with the third one besides. -/
theorem fewer_roots_sample :
    let roots : List Request := [.ofCallable ⟨1⟩, .ofCallable ⟨0⟩]
    lenientSample.ReachesCheck (roots ++ [.ofCallable ⟨2⟩]) ∧
      ∃ l, lenientSample.ConflictAt roots l ∧ lenientSample.ConflictAt (roots ++ [.ofCallable ⟨2⟩]) l := by
  intro roots
  have hmore : (match (lenientSample.run (roots ++ [.ofCallable ⟨2⟩])).1 with
      | .error ⟨.writeConflicts _, _⟩ => true
      | _ => false) = true := by decide +kernel
  have hconflict : (match (lenientSample.run roots).1 with
      | .error f => (f.withCode .writeConflict).any (·.location.isSome)
      | .ok _ => false) = true := by decide +kernel
  have hreaches : lenientSample.ReachesCheck (roots ++ [.ofCallable ⟨2⟩]) := by
    split at hmore
    · next count diagnostics hf => exact .inr ⟨_, count, hf, rfl⟩
    · cases hmore
  obtain ⟨-, -, hkept, -⟩ := fewer_roots lenientSample roots [.ofCallable ⟨2⟩] Model.wellFormed_sample rfl hreaches
  split at hconflict
  · next f hf =>
    obtain ⟨d, hd, hl⟩ := List.any_eq_true.1 hconflict
    obtain ⟨l, hl⟩ := Option.isSome_iff_exists.1 hl
    have hat : lenientSample.ConflictAt roots l := ⟨f, hf, d, hd, hl⟩
    exact ⟨hreaches, l, hat, hkept l hat⟩
  · cases hconflict

end Independence.Checker
