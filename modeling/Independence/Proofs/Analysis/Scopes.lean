import Mathlib.Data.List.Basic
import Independence.Analysis.Traversal
/-!
# Scopes of a traversal

A traversal is used through scopes: a frame is entered, and until it is left again everything happens inside. Here the
steps of a use are in one list, and a scope is known by the position at which it was entered. What is open at a moment,
what was taken and what is left over, and what was committed, are read off the steps. That the traversal holds the same is
shown from step to step: each scope sets aside what its surroundings left over so far and gives it back when it is left.
-/

namespace Independence.Traversal

/-- A step in the use of a traversal. -/
inductive Step where
  | enter (f : CallableId)
  | register (r : Request)
  | takePending
  | commit
  /-- The innermost scope is left. -/
  | leave

namespace Step

def registered? : Step → Option Request
  | .register r => some r
  | .enter _ | .takePending | .commit | .leave => none

def isTake : Step → Bool
  | .takePending => true
  | .enter _ | .register _ | .commit | .leave => false

def isCommit : Step → Bool
  | .commit => true
  | .enter _ | .register _ | .takePending | .leave => false

def isLeave : Step → Bool
  | .leave => true
  | .enter _ | .register _ | .takePending | .commit => false

/-- Only the innermost scope can take the step. -/
def ofScope (s : Step) : Bool := s.isTake || s.isCommit || s.isLeave

end Step

def step (t : Traversal) : Step → Traversal
  | .enter f => t.enter f
  | .register r => t.register r
  | .takePending => t.takePending.2
  | .commit => t.commit.2
  | .leave => t.leave

/-- The traversal after the first `n` steps. -/
def upTo (t : Traversal) (steps : List Step) (n : Nat) : Traversal := (steps.take n).foldl step t

/-! ## What the steps say -/

/-- The position at which a scope was entered, and for which candidate. -/
structure Scope where
  position : Nat
  candidate : CallableId
deriving DecidableEq

section Steps
variable (steps : List Step)

/-- The scopes that are open after the first `n` steps, innermost first. -/
def scopes : Nat → List Scope
  | 0 => []
  | n + 1 =>
    match steps[n]? with
    | some (.enter f) => ⟨n, f⟩ :: scopes n
    | some .leave => (scopes n).tail
    | some (.register _) | some .takePending | some .commit | none => scopes n

/-- Nothing is taken, committed or left but by a scope that was entered before. -/
def Nested : Prop := ∀ n < steps.length, steps[n]?.any Step.ofScope = true → (scopes steps n).isEmpty = false

instance : Decidable (Nested steps) := inferInstanceAs (Decidable (∀ n < steps.length, _ → _))

/-- What was registered at `j` was taken before `n`, by a scope that had been entered before it was registered and was the
innermost one then. -/
def taken (n j : Nat) : Bool :=
  (List.range n).any fun k => j < k && steps[k]?.any Step.isTake && (scopes steps k).head?.any (·.position < j)

/-- What was registered from `start` on before `n` and not taken since, in order. -/
def untaken (start n : Nat) : List Request :=
  (List.range' start (n - start)).filterMap fun j => if taken steps n j then none else steps[j]?.bind Step.registered?

/-- Under what the scope committed last before the moment, if it did. The numbers are those that the commits returned to
it. -/
def committedAs (t : Traversal) (c : Scope) : Nat → Option BaselineId
  | 0 => none
  | n + 1 =>
    if steps[n]?.any Step.isCommit && (scopes steps n).head? == some c then some (t.upTo steps n).commit.1
    else committedAs t c n

/-- The candidates of the open frames, those from the start included, each with its last commit, if it did one. -/
def openFrames (t : Traversal) (n : Nat) : List (CallableId × Option BaselineId) :=
  (scopes steps n).map (fun c => (c.candidate, committedAs steps t c n)) ++ t.frames.map fun f => (f.candidate, f.baseline)

end Steps

variable {t : Traversal} {steps : List Step} {n k j : Nat} {s : Step} {c d : Scope} {rest : List Scope}

/-! ## Scopes are a stack -/

theorem upTo_succ (h : steps[n]? = some s) : t.upTo steps (n + 1) = (t.upTo steps n).step s := by
  rw [upTo, List.take_add_one, h, List.foldl_append]
  rfl

theorem upTo_succ_of_none (h : steps[n]? = none) : t.upTo steps (n + 1) = t.upTo steps n := by
  rw [upTo, List.take_add_one, h, Option.toList_none, List.append_nil, upTo]

/-- A scope that is open after a step was open before or is entered by the step. -/
theorem scopes_succ_cases (h : c ∈ scopes steps (n + 1)) :
    c ∈ scopes steps n ∨ c.position = n ∧ steps[n]? = some (.enter c.candidate) := by
  unfold scopes at h
  split at h
  · next f hf =>
    rcases List.mem_cons.1 h with rfl | h
    · exact .inr ⟨rfl, hf⟩
    · exact .inl h
  · exact .inl (List.mem_of_mem_tail h)
  · exact .inl h
  · exact .inl h
  · exact .inl h
  · exact .inl h

theorem entered_of_mem_scopes (h : c ∈ scopes steps n) :
    c.position < n ∧ steps[c.position]? = some (.enter c.candidate) := by
  induction n with
  | zero => cases h
  | succ n ih =>
    rcases scopes_succ_cases h with h | ⟨rfl, he⟩
    · exact ⟨Nat.lt_succ_of_lt (ih h).1, (ih h).2⟩
    · exact ⟨Nat.lt_succ_self _, he⟩

/-- A scope that is open was open ever since it was entered. -/
theorem mem_scopes_of_le (h : c ∈ scopes steps n) (hc : c.position < k) (hk : k ≤ n) : c ∈ scopes steps k := by
  induction n with
  | zero => cases h
  | succ n ih =>
    rcases Nat.lt_or_eq_of_le hk with hlt | rfl
    · rcases scopes_succ_cases h with h | ⟨rfl, -⟩
      · exact ih h (Nat.le_of_lt_succ hlt)
      · omega
    · exact h

/-- Below an open scope there are those that were open when it was entered. -/
theorem scopes_below (h : c :: rest <:+ scopes steps n) : scopes steps c.position = rest := by
  induction n with
  | zero => cases List.suffix_nil.1 h
  | succ n ih =>
    unfold scopes at h
    split at h
    · rcases List.suffix_cons_iff.1 h with he | h
      · cases he
        rfl
      · exact ih h
    · exact ih (h.trans (List.tail_suffix _))
    · exact ih h
    · exact ih h
    · exact ih h
    · exact ih h

theorem scopes_position (h : scopes steps n = c :: rest) : scopes steps c.position = rest :=
  scopes_below ⟨[], h.symm⟩

/-- No scope further out is open than the innermost one. -/
theorem position_le_head (h : c ∈ scopes steps n) (hd : (scopes steps n).head? = some d) : c.position ≤ d.position := by
  obtain ⟨rest, hrest⟩ := List.head?_eq_some_iff.1 hd
  rw [hrest] at h
  rcases List.mem_cons.1 h with rfl | h
  · exact Nat.le_refl _
  · rw [← scopes_position hrest] at h
    exact Nat.le_of_lt (entered_of_mem_scopes h).1

/-! ## What is taken and what is left over -/

theorem taken_iff : taken steps n j = true ↔ ∃ k, j < k ∧ k < n ∧ steps[k]? = some .takePending ∧
    ∃ c, (scopes steps k).head? = some c ∧ c.position < j := by
  have htake : ∀ k : Nat, steps[k]?.any Step.isTake = true ↔ steps[k]? = some Step.takePending := by
    intro k
    cases steps[k]? with
    | none => simp
    | some s => cases s <;> simp [Step.isTake]
  simp only [taken, List.any_eq_true, List.mem_range, Bool.and_eq_true, decide_eq_true_eq, htake, Option.any_eq_true]
  constructor
  · rintro ⟨k, hk, ⟨hj, ht⟩, c, hc, hlt⟩
    exact ⟨k, hj, hk, ht, c, hc, hlt⟩
  · rintro ⟨k, hj, hk, ht, c, hc, hlt⟩
    exact ⟨k, hk, ⟨hj, ht⟩, c, hc, hlt⟩

/-- Only a take takes something. -/
theorem taken_succ (h : steps[n]? ≠ some .takePending) (j : Nat) : taken steps (n + 1) j = taken steps n j := by
  rw [Bool.eq_iff_iff, taken_iff, taken_iff]
  constructor
  · rintro ⟨k, hj, hk, ht, hc⟩
    have hne : k ≠ n := fun hkn => h (hkn ▸ ht)
    exact ⟨k, hj, by omega, ht, hc⟩
  · rintro ⟨k, hj, hk, ht, hc⟩
    exact ⟨k, hj, Nat.lt_succ_of_lt hk, ht, hc⟩

/-- What was registered before a scope was entered is not taken as long as it is open. -/
theorem taken_of_open (h : c ∈ scopes steps n) (hj : j < c.position) : taken steps n j = taken steps c.position j := by
  obtain ⟨hposition, hentered⟩ := entered_of_mem_scopes h
  rw [Bool.eq_iff_iff, taken_iff, taken_iff]
  constructor
  · rintro ⟨k, hjk, hk, ht, d, hd, hlt⟩
    refine ⟨k, hjk, ?_, ht, d, hd, hlt⟩
    rcases Nat.lt_trichotomy k c.position with hkc | rfl | hck
    · exact hkc
    · rw [hentered] at ht
      cases ht
    · have := position_le_head (mem_scopes_of_le h hck (Nat.le_of_lt hk)) hd
      omega
  · rintro ⟨k, hjk, hk, ht, hc⟩
    exact ⟨k, hjk, by omega, ht, hc⟩

theorem not_taken_self (n : Nat) : taken steps (n + 1) n = false := by
  rw [Bool.eq_false_iff, Ne, taken_iff]
  rintro ⟨k, hj, hk, -⟩
  omega

@[simp] theorem untaken_self (n : Nat) : untaken steps n n = [] := by simp [untaken]

theorem untaken_succ {start : Nat} (hstart : start ≤ n) (h : steps[n]? ≠ some .takePending) :
    untaken steps start (n + 1) = untaken steps start n ++ (steps[n]?.bind Step.registered?).toList := by
  have hlength : n + 1 - start = (n - start) + 1 := by omega
  have hlast : start + (n - start) = n := by omega
  simp only [untaken, hlength, List.range'_1_concat, List.filterMap_append, hlast, taken_succ h]
  congr 1
  have hn : taken steps n n = false := (taken_succ h n).symm.trans (not_taken_self n)
  simp [List.filterMap_cons, hn]
  cases steps[n]?.bind Step.registered? <;> rfl

/-- A take leaves nothing over of what was registered in the scope. -/
theorem untaken_take (h : steps[n]? = some .takePending) (hc : (scopes steps n).head? = some c) :
    untaken steps (c.position + 1) (n + 1) = [] := by
  refine List.filterMap_eq_nil_iff.2 fun j hj => ?_
  obtain ⟨hstart, hend⟩ : c.position + 1 ≤ j ∧ j < n + 1 := by
    have := List.mem_range'_1.1 hj
    omega
  split
  · rfl
  · next hnot =>
    have hjn : j = n := by
      by_contra hne
      exact hnot (taken_iff.2 ⟨n, by omega, Nat.lt_succ_self n, h, c, hc, hstart⟩)
    rw [hjn, h]
    rfl

/-- What is left over as long as a scope is open: what was so before, and what is inside. -/
theorem untaken_of_open {start : Nat} (h : c ∈ scopes steps n) (hstart : start ≤ c.position) :
    untaken steps start n = untaken steps start c.position ++ untaken steps (c.position + 1) n := by
  obtain ⟨hposition, hentered⟩ := entered_of_mem_scopes h
  have hsplit : List.range' start (n - start) = List.range' start (c.position - start) ++
      c.position :: List.range' (c.position + 1) (n - (c.position + 1)) := by
    have hlength : n - start = (c.position - start) + ((n - (c.position + 1)) + 1) := by omega
    have hfirst : start + (c.position - start) = c.position := by omega
    rw [hlength, ← List.range'_append_1, hfirst, List.range'_succ]
  have hbefore : ∀ j ∈ List.range' start (c.position - start),
      (if taken steps n j then none else steps[j]?.bind Step.registered?) =
        if taken steps c.position j then none else steps[j]?.bind Step.registered? := by
    intro j hj
    have hlt : j < c.position := by
      have := List.mem_range'_1.1 hj
      omega
    rw [taken_of_open h hlt]
  rw [untaken, hsplit, List.filterMap_append, List.filterMap_congr hbefore, List.filterMap_cons_none]
  · rfl
  · rw [hentered]
    split <;> rfl

/-! ## Commits -/

theorem committedAs_succ (h : steps[n]? ≠ some .commit) (c : Scope) :
    committedAs steps t c (n + 1) = committedAs steps t c n := by
  have hcommit : steps[n]?.any Step.isCommit = false := by
    cases hs : steps[n]? with
    | none => rfl
    | some s => cases s <;> first | rfl | exact absurd hs h
  simp [committedAs, hcommit]

theorem committedAs_commit (h : steps[n]? = some .commit) (c : Scope) : committedAs steps t c (n + 1) =
    if (scopes steps n).head? = some c then some (t.upTo steps n).commit.1 else committedAs steps t c n := by
  simp [committedAs, h, Step.isCommit]

/-- A scope commits nothing before it is entered. -/
theorem committedAs_of_le (hn : n ≤ c.position) : committedAs steps t c n = none := by
  induction n with
  | zero => rfl
  | succ n ih =>
    have hhead : (scopes steps n).head? ≠ some c := by
      intro hc
      have := (entered_of_mem_scopes (List.mem_of_head? hc)).1
      omega
    simp [committedAs, hhead, ih (Nat.le_of_succ_le hn)]

/-- While a scope further in is open, a scope commits nothing. -/
theorem committedAs_of_open (h : c ∈ scopes steps n) (hd : d.position < c.position) :
    committedAs steps t d n = committedAs steps t d c.position := by
  obtain ⟨hposition, hentered⟩ := entered_of_mem_scopes h
  suffices hupTo : ∀ k, c.position ≤ k → k ≤ n → committedAs steps t d k = committedAs steps t d c.position from
    hupTo n (Nat.le_of_lt hposition) (Nat.le_refl n)
  intro k hk hkn
  induction hk with
  | refl => rfl
  | @step k hck ih =>
    have hck : c.position ≤ k := hck
    rw [← ih (Nat.le_of_succ_le hkn)]
    by_cases hcommit : steps[k]? = some .commit
    · rw [committedAs_commit hcommit, if_neg]
      intro hhead
      have hne : c.position ≠ k := by
        rintro rfl
        rw [hentered] at hcommit
        cases hcommit
      have := position_le_head (mem_scopes_of_le h (by omega) (Nat.le_of_succ_le hkn)) hhead
      omega
    · exact committedAs_succ hcommit d

/-! ## What the traversal holds -/

/-- The frame of an open scope. -/
def frameOf (t : Traversal) (steps : List Step) (n : Nat) (c : Scope) : Frame :=
  ⟨c.candidate, committedAs steps t c n, (t.upTo steps c.position).pending⟩

/-- What was pending before the innermost one of these scopes was entered and stays so inside: nothing. -/
def outside (t : Traversal) : List Scope → List Request
  | [] => t.pending
  | _ :: _ => []

/-- Where the steps inside the innermost one of these scopes start. -/
def inside : List Scope → Nat
  | [] => 0
  | c :: _ => c.position + 1

/-- The traversal holds what the first `n` steps say. -/
structure Holds (t : Traversal) (steps : List Step) (n : Nat) : Prop where
  frames : (t.upTo steps n).frames = (scopes steps n).map (frameOf t steps n) ++ t.frames
  pending : (t.upTo steps n).pending = t.outside (scopes steps n) ++ untaken steps (inside (scopes steps n)) n

theorem frameOf_succ (h : steps[n]? ≠ some .commit) : frameOf t steps (n + 1) = frameOf t steps n := by
  funext c
  rw [frameOf, frameOf, committedAs_succ h]

theorem inside_le (steps : List Step) (n : Nat) : inside (scopes steps n) ≤ n := by
  cases h : scopes steps n with
  | nil => exact Nat.zero_le n
  | cons c rest => exact (entered_of_mem_scopes (h ▸ List.mem_cons_self)).1

theorem Nested.innermost (hnested : Nested steps) (hs : steps[n]? = some s) (hof : s.ofScope = true) :
    ∃ c rest, scopes steps n = c :: rest := by
  have hlt : n < steps.length := (List.getElem?_eq_some_iff.1 hs).1
  have hopen := hnested n hlt (by rw [hs]; exact hof)
  cases hscopes : scopes steps n with
  | nil =>
    rw [hscopes] at hopen
    cases hopen
  | cons c rest => exact ⟨c, rest, rfl⟩

namespace Holds

theorem none (h : Holds t steps n) (hs : steps[n]? = .none) : Holds t steps (n + 1) := by
  have hscopes : scopes steps (n + 1) = scopes steps n := by simp only [scopes, hs]
  constructor
  · rw [upTo_succ_of_none hs, hscopes, h.frames, frameOf_succ (by simp [hs])]
  · rw [upTo_succ_of_none hs, hscopes, h.pending, untaken_succ (inside_le steps n) (by simp [hs])]
    simp [hs]

theorem enter (h : Holds t steps n) {f : CallableId} (hs : steps[n]? = some (.enter f)) : Holds t steps (n + 1) := by
  have hscopes : scopes steps (n + 1) = ⟨n, f⟩ :: scopes steps n := by simp only [scopes, hs]
  constructor
  · have hnew : frameOf t steps n ⟨n, f⟩ = ⟨f, .none, (t.upTo steps n).pending⟩ := by
      rw [frameOf, committedAs_of_le (Nat.le_refl n)]
    rw [upTo_succ hs, hscopes, frameOf_succ (by simp [hs]), List.map_cons, List.cons_append, ← h.frames, hnew]
    rfl
  · rw [upTo_succ hs, hscopes, inside, untaken_self]
    rfl

theorem register (h : Holds t steps n) {r : Request} (hs : steps[n]? = some (.register r)) :
    Holds t steps (n + 1) := by
  have hscopes : scopes steps (n + 1) = scopes steps n := by simp only [scopes, hs]
  constructor
  · rw [upTo_succ hs, hscopes, frameOf_succ (by simp [hs])]
    exact h.frames
  · rw [upTo_succ hs, hscopes, untaken_succ (inside_le steps n) (by simp [hs]), ← List.append_assoc, ← h.pending, hs]
    rfl

theorem takePending (h : Holds t steps n) (hs : steps[n]? = some .takePending) {c : Scope} {rest : List Scope}
    (hc : scopes steps n = c :: rest) : Holds t steps (n + 1) := by
  have hscopes : scopes steps (n + 1) = scopes steps n := by simp only [scopes, hs]
  constructor
  · rw [upTo_succ hs, hscopes, frameOf_succ (by simp [hs])]
    exact h.frames
  · rw [upTo_succ hs, hscopes, hc, inside, untaken_take hs (by rw [hc]; rfl)]
    rfl

theorem commit (h : Holds t steps n) (hs : steps[n]? = some .commit) {c : Scope} {rest : List Scope}
    (hc : scopes steps n = c :: rest) : Holds t steps (n + 1) := by
  have hscopes : scopes steps (n + 1) = scopes steps n := by simp only [scopes, hs]
  have hhead : (scopes steps n).head? = some c := by rw [hc]; rfl
  have hframes := h.frames
  rw [hc, List.map_cons, List.cons_append] at hframes
  have hinnermost : frameOf t steps (n + 1) c =
      { frameOf t steps n c with baseline := some (t.upTo steps n).commit.1 } := by
    rw [frameOf, committedAs_commit hs, if_pos hhead]
    rfl
  have hrest : rest.map (frameOf t steps (n + 1)) = rest.map (frameOf t steps n) := by
    refine List.map_congr_left fun d hd => ?_
    -- A scope further out is another one.
    have hne : (scopes steps n).head? ≠ some d := by
      rw [hhead]
      rintro ⟨⟩
      rw [← scopes_position hc] at hd
      exact Nat.lt_irrefl _ (entered_of_mem_scopes hd).1
    rw [frameOf, committedAs_commit hs, if_neg hne, frameOf]
  constructor
  · rw [upTo_succ hs, hscopes, hc, List.map_cons, List.cons_append, hinnermost, hrest]
    simp only [step, Traversal.commit, hframes]
  · rw [upTo_succ hs, hscopes, untaken_succ (inside_le steps n) (by simp [hs]), ← List.append_assoc, ← h.pending, hs]
    simp [step, Traversal.commit, Step.registered?]

/-- When a scope is left, its surroundings have what they left over so far, and then what the scope leaves over. -/
theorem leave (h : Holds t steps n) (hs : steps[n]? = some .leave) {c : Scope} {rest : List Scope}
    (hc : scopes steps n = c :: rest) (hthen : Holds t steps c.position) : Holds t steps (n + 1) := by
  have hscopes : scopes steps (n + 1) = rest := by simp only [scopes, hs, hc, List.tail_cons]
  have hframes := h.frames
  rw [hc, List.map_cons, List.cons_append] at hframes
  have hmem : c ∈ scopes steps n := by
    rw [hc]
    exact List.mem_cons_self
  have hbelow : inside rest ≤ c.position := by
    rw [← scopes_position hc]
    exact inside_le steps c.position
  constructor
  · rw [upTo_succ hs, hscopes, frameOf_succ (by simp [hs])]
    simp only [step, Traversal.leave, hframes]
  · have hpending := hthen.pending
    rw [scopes_position hc] at hpending
    rw [upTo_succ hs, hscopes, untaken_succ (Nat.le_trans hbelow (Nat.le_of_lt (entered_of_mem_scopes hmem).1))
      (by simp [hs]), untaken_of_open hmem hbelow, hs]
    simp only [step, Traversal.leave, hframes, frameOf, hpending, h.pending, hc, outside, inside]
    simp [Step.registered?]

end Holds

theorem holds_upTo (t : Traversal) (hnested : Nested steps) (n : Nat) : Holds t steps n := by
  -- A scope gives back what was pending when it was entered, so the induction reaches back to there.
  induction n using Nat.strongRecOn with
  | ind n ih =>
    cases n with
    | zero => exact ⟨rfl, by simp [upTo, scopes, outside, inside]⟩
    | succ n =>
      have h := ih n (Nat.lt_succ_self n)
      cases hs : steps[n]? with
      | none => exact h.none hs
      | some s =>
        cases s with
        | enter f => exact h.enter hs
        | register r => exact h.register hs
        | takePending =>
          obtain ⟨c, rest, hc⟩ := hnested.innermost hs rfl
          exact h.takePending hs hc
        | commit =>
          obtain ⟨c, rest, hc⟩ := hnested.innermost hs rfl
          exact h.commit hs hc
        | leave =>
          obtain ⟨c, rest, hc⟩ := hnested.innermost hs rfl
          have hlt := (entered_of_mem_scopes (hc ▸ List.mem_cons_self : c ∈ scopes steps n)).1
          exact h.leave hs hc (ih c.position (by omega))

/-! ## Scope discipline -/

/-- When a scope is left, the frames are those from before it was entered. -/
theorem frames_leave (hnested : Nested steps) (hs : steps[n]? = some .leave) (hc : scopes steps n = c :: rest) :
    (t.upTo steps (n + 1)).frames = (t.upTo steps c.position).frames := by
  have hscopes : scopes steps (n + 1) = rest := by simp only [scopes, hs, hc, List.tail_cons]
  rw [(holds_upTo t hnested (n + 1)).frames, (holds_upTo t hnested c.position).frames, hscopes, scopes_position hc]
  congr 1
  refine List.map_congr_left fun d hd => ?_
  rw [← scopes_position hc] at hd
  have hmem : c ∈ scopes steps n := by
    rw [hc]
    exact List.mem_cons_self
  rw [frameOf_succ (by simp [hs]), frameOf, frameOf, committedAs_of_open hmem (entered_of_mem_scopes hd).1]

/-- It gives back what was pending then, and what it leaves over comes behind. -/
theorem pending_leave (hnested : Nested steps) (hs : steps[n]? = some .leave) (hc : scopes steps n = c :: rest) :
    (t.upTo steps (n + 1)).pending = (t.upTo steps c.position).pending ++ untaken steps (c.position + 1) n := by
  have h := holds_upTo t hnested n
  have hframes := h.frames
  rw [hc, List.map_cons, List.cons_append] at hframes
  rw [upTo_succ hs]
  simp only [step, Traversal.leave, hframes, frameOf, h.pending, hc, outside, inside, List.nil_append]

theorem committed?_upTo (hnested : Nested steps) (n : Nat) :
    (t.upTo steps n).committed?.map (fun f => (f.candidate, f.baseline)) = (openFrames steps t n).find? (·.2.isSome) := by
  have hopen : openFrames steps t n = (t.upTo steps n).frames.map fun f => (f.candidate, f.baseline) := by
    rw [(holds_upTo t hnested n).frames, List.map_append, List.map_map]
    rfl
  rw [hopen, List.find?_map]
  rfl

theorem commits_mono (t : Traversal) (steps : List Step) (hk : k ≤ n) :
    (t.upTo steps k).commits ≤ (t.upTo steps n).commits := by
  induction hk with
  | refl => exact Nat.le_refl _
  | @step n _ ih =>
    refine Nat.le_trans ih ?_
    cases hs : steps[n]? with
    | none => exact Nat.le_of_eq (congrArg commits (upTo_succ_of_none hs).symm)
    | some s =>
      rw [upTo_succ hs]
      cases s with
      | commit => exact Nat.le_succ _
      | leave =>
        simp only [step, Traversal.leave]
        split <;> exact Nat.le_refl _
      | _ => exact Nat.le_refl _

/-- The discipline of scopes, for every traversal to begin with and every nested use of it, at every moment `n` of it. When
a scope is left, the frames are those from before it was entered, and pending is what was pending then and behind it, in
order, what was registered inside, also further inside, and not taken. A take takes what was registered since the innermost
scope was entered and not taken before. The parent and the baseline are those of the innermost open frame that committed, if
one did. Each commit has a higher number than all those before. -/
theorem scopes_keep_to_their_own (t : Traversal) (hnested : Nested steps) (n : Nat) :
    (steps[n]? = some .leave → ∃ c rest, scopes steps n = c :: rest ∧ steps[c.position]? = some (.enter c.candidate) ∧
      (t.upTo steps (n + 1)).frames = (t.upTo steps c.position).frames ∧
      (t.upTo steps (n + 1)).pending = (t.upTo steps c.position).pending ++ untaken steps (c.position + 1) n) ∧
    (steps[n]? = some .takePending → ∃ c rest, scopes steps n = c :: rest ∧
      steps[c.position]? = some (.enter c.candidate) ∧
      (t.upTo steps n).takePending.1 = untaken steps (c.position + 1) n) ∧
    (t.upTo steps n).parent? = ((openFrames steps t n).find? (·.2.isSome)).map Prod.fst ∧
    (t.upTo steps n).baseline = (((openFrames steps t n).find? (·.2.isSome)).bind Prod.snd).getD .global ∧
    (steps[n]? = some .commit → t.commits < (t.upTo steps n).commit.1.index ∧
      ∀ k < n, steps[k]? = some .commit → (t.upTo steps k).commit.1.index < (t.upTo steps n).commit.1.index) := by
  have hentered : ∀ {c rest}, scopes steps n = c :: rest → steps[c.position]? = some (.enter c.candidate) :=
    fun hc => (entered_of_mem_scopes (by rw [hc]; exact List.mem_cons_self)).2
  refine ⟨fun hs => ?_, fun hs => ?_, ?_, ?_, fun hs => ⟨?_, fun k hk hcommit => ?_⟩⟩
  · obtain ⟨c, rest, hc⟩ := hnested.innermost hs rfl
    exact ⟨c, rest, hc, hentered hc, frames_leave hnested hs hc, pending_leave hnested hs hc⟩
  · obtain ⟨c, rest, hc⟩ := hnested.innermost hs rfl
    refine ⟨c, rest, hc, hentered hc, (holds_upTo t hnested n).pending.trans ?_⟩
    rw [hc]
    rfl
  · rw [← committed?_upTo hnested, Option.map_map]
    rfl
  · rw [← committed?_upTo hnested, Option.bind_map]
    rfl
  · exact Nat.lt_succ_of_le (commits_mono t steps (Nat.zero_le n))
  · have hlater := commits_mono t steps (Nat.succ_le_of_lt hk)
    rw [upTo_succ hcommit] at hlater
    exact Nat.lt_succ_of_le hlater

/-- Two scopes, one inside the other. The inner one takes something and leaves something over, which the outer one takes. -/
theorem scopes_keep_to_their_own_sample :
    let ask (f : Nat) : Request := .ofCallable ⟨f⟩
    let steps : List Step := [.enter ⟨0⟩, .register (ask 1), .commit, .enter ⟨1⟩, .register (ask 2), .takePending,
      .register (ask 3), .leave, .takePending, .register (ask 4), .leave]
    let t : Traversal := ⟨[], [ask 0], 0⟩
    (t.upTo steps 6).parent? = some ⟨0⟩ ∧ (t.upTo steps 8).pending = [ask 1, ask 3] ∧
      (t.upTo steps 8).takePending.1 = [ask 1, ask 3] ∧ (t.upTo steps 11).frames = [] ∧
      (t.upTo steps 11).pending = [ask 0, ask 4] := by
  intro ask steps t
  have hnested : Nested steps := by decide
  have h := scopes_keep_to_their_own t hnested
  obtain ⟨c, rest, hc, -, -, hinner⟩ := (h 7).1 rfl
  obtain ⟨d, rest', hd, -, htake⟩ := (h 8).2.1 rfl
  obtain ⟨e, rest'', he, -, hframes, houter⟩ := (h 10).1 rfl
  cases hc
  cases hd
  cases he
  exact ⟨(h 6).2.2.1, hinner, htake, hframes, houter⟩

end Independence.Traversal
