import Independence.Program.Placeholder
/-!
# Calls with placeholders

Whether a callable can be called with placeholders is a matter of its parameters alone, not of the supply that the
placeholders come from.
-/

namespace Independence.Placeholders

variable {p : Placeholders} {f : CallableId} {s : Signature} {shape : Option Shape}

/-- A call was put together: the parameters are simple, and the call is one of `f` from where it is defined. -/
theorem of_synthesize {call : Call} {q : Placeholders} (h : p.synthesize f s shape = .ok (call, q)) :
    (∃ names, s.simpleNames = .ok names) ∧ call.callee = f ∧ call.location = s.location := by
  cases hs : s.simpleNames with
  | error u =>
    simp only [synthesize, hs] at h
    cases h
  | ok names =>
    simp only [synthesize, hs] at h
    cases h
    exact ⟨⟨names, rfl⟩, rfl, rfl⟩

/-- Simple parameters can be given placeholders from any supply. -/
theorem synthesize_of_simple {names : List String} (h : s.simpleNames = .ok names) (p : Placeholders) (f : CallableId)
    (shape : Option Shape) : ∃ call q, p.synthesize f s shape = .ok (call, q) ∧ call.callee = f ∧
      call.location = s.location := by
  simp only [synthesize, h]
  exact ⟨_, _, rfl, rfl, rfl⟩

/-- Parameters that are not simple are refused whatever the supply. -/
theorem synthesize_of_error {u : UnsupportedParameter} (h : p.synthesize f s shape = .error u) (p' : Placeholders) :
    p'.synthesize f s shape = .error u := by
  cases hs : s.simpleNames with
  | error u' =>
    simp only [synthesize, hs] at h ⊢
    exact h
  | ok names =>
    simp only [synthesize, hs] at h
    cases h

end Independence.Placeholders
