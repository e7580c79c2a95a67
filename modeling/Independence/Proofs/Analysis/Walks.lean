import Independence.Proofs.Analysis.Ancestry
/-!
# Walks along the parents, round by round

Two loops climb the parents of a callable. The one collects the records on the way, the other looks out for a callable.
Both count against the number of records, in case that the parents form a cycle, but the one looks a parent up before it
counts, and the other compares it before that. Each loop is stated here by its round. Both end with what the table says
about ancestors, cycles or not; and as long as parents come before their children, they end at the top.
-/

namespace Independence

/-- What a round of a loop does: it goes on from a state, or it is done with a result. -/
inductive Round (σ β : Type) where
  | again (s : σ)
  | done (b : β)

/-- From a state the loop goes on so often and is done with a result then. -/
inductive Round.Ends {σ β : Type} (round : σ → Round σ β) : σ → Nat → β → Prop
  | done {s : σ} {b : β} (h : round s = .done b) : Ends round s 0 b
  | again {s s' : σ} {n : Nat} {b : β} (h : round s = .again s') (h' : Ends round s' n b) : Ends round s (n + 1) b

namespace Table

variable {t : Table} {a f : CallableId} {x : Option CallableId} {rs : List Record}

/-! ## The two loops -/

/-- Why a walk is over. -/
inductive Halt where
  /-- There is no parent. -/
  | top
  /-- The parent has no record. -/
  | unrecorded
  /-- There are more steps than records. -/
  | guarded

/-- A round of the walk that collects the records, those of the first steps first. -/
def collect (t : Table) : List Record × Option CallableId → Round (List Record × Option CallableId) (Halt × List Record)
  | (chain, none) => .done (.top, chain.reverse)
  | (chain, some parent) =>
    match t.get? parent with
    | none => .done (.unrecorded, chain.reverse)
    | some record =>
      if t.size < chain.length then .done (.guarded, chain.reverse)
      else .again (chain ++ [record], record.parent)

/-- A round of the walk that looks out for `a`, after so many steps. -/
def search (t : Table) (a : CallableId) : Nat × Option CallableId → Round (Nat × Option CallableId) Bool
  | (_, none) => .done false
  | (steps, some parent) =>
    if parent = a then .done true
    else if t.size < steps + 1 then .done false
    else .again (steps + 1, t.parent? parent)

variable {chain : List Record}

theorem collect_top (t : Table) (chain : List Record) : t.collect (chain, none) = .done (.top, chain.reverse) := rfl

theorem collect_unrecorded (hf : t.get? f = none) : t.collect (chain, some f) = .done (.unrecorded, chain.reverse) := by
  simp [collect, hf]

theorem collect_guarded {r : Record} (hf : t.get? f = some r) (hguard : t.size < chain.length) :
    t.collect (chain, some f) = .done (.guarded, chain.reverse) := by
  simp [collect, hf, hguard]

theorem collect_again {r : Record} (hf : t.get? f = some r) (hguard : chain.length ≤ t.size) :
    t.collect (chain, some f) = .again (chain ++ [r], r.parent) := by
  simp [collect, hf, Nat.not_lt.2 hguard]

/-! ## Where they end -/

theorem length_ascend_le (t : Table) (steps : Nat) (x : Option CallableId) : (t.ascend steps x).length ≤ steps := by
  induction steps generalizing x with
  | zero => simp [ascend]
  | succ steps ih =>
    cases x with
    | none => simp [ascend]
    | some parent =>
      cases hr : t.get? parent with
      | none => simp [ascend, hr]
      | some record => simpa [ascend, hr] using ih record.parent

/-- The walk collects what the bounded ascent meets, one record with each step. -/
theorem collect_ends {steps : Nat} (h : chain.length + steps = t.size + 1) :
    ∃ why, Round.Ends t.collect (chain, x) (t.ascend steps x).length (why, (chain ++ t.ascend steps x).reverse) := by
  induction steps generalizing chain x with
  | zero =>
    -- No step is left, and the guard sees that.
    have hguard : t.size < chain.length := by omega
    simp only [ascend, List.length_nil, List.append_nil]
    cases x with
    | none => exact ⟨.top, .done (t.collect_top chain)⟩
    | some parent =>
      cases hr : t.get? parent with
      | none => exact ⟨.unrecorded, .done (collect_unrecorded hr)⟩
      | some record => exact ⟨.guarded, .done (collect_guarded hr hguard)⟩
  | succ steps ih =>
    cases x with
    | none => exact ⟨.top, by simpa [ascend] using Round.Ends.done (t.collect_top chain)⟩
    | some parent =>
      cases hr : t.get? parent with
      | none => exact ⟨.unrecorded, by simpa [ascend, hr] using Round.Ends.done (collect_unrecorded hr)⟩
      | some record =>
        have hguard : chain.length ≤ t.size := by omega
        have hsteps : (chain ++ [record]).length + steps = t.size + 1 := by
          rw [List.length_append, List.length_singleton]
          omega
        obtain ⟨why, hwhy⟩ := ih (x := record.parent) hsteps
        refine ⟨why, ?_⟩
        simpa [ascend, hr] using Round.Ends.again (collect_again hr hguard) hwhy

/-- Where the parents end, the walk gets to the top. -/
theorem Chain.collect_ends (h : t.Chain x rs) (hlen : chain.length + rs.length ≤ t.size + 1) :
    Round.Ends t.collect (chain, x) rs.length (.top, (chain ++ rs).reverse) := by
  induction h generalizing chain with
  | root => simpa using Round.Ends.done (t.collect_top chain)
  | @step f r rs hr _ ih =>
    rw [List.length_cons] at hlen
    have hguard : chain.length ≤ t.size := by omega
    have hrest : (chain ++ [r]).length + rs.length ≤ t.size + 1 := by
      rw [List.length_append, List.length_singleton]
      omega
    simpa using Round.Ends.again (collect_again hr hguard) (ih hrest)

/-- The other walk meets whom the bounded search meets. -/
theorem search_ends {past steps : Nat} (h : past + steps = t.size) :
    ∃ n ≤ steps, Round.Ends (t.search a) (past, x) n (t.meets a (steps + 1) x) := by
  induction steps generalizing past x with
  | zero =>
    refine ⟨0, Nat.le_refl 0, .done ?_⟩
    cases x with
    | none => rfl
    | some parent =>
      have hguard : t.size < past + 1 := by omega
      by_cases hparent : parent = a <;> simp [search, meets, hparent, hguard]
  | succ steps ih =>
    cases x with
    | none => exact ⟨0, Nat.zero_le _, .done rfl⟩
    | some parent =>
      by_cases hparent : parent = a
      · exact ⟨0, Nat.zero_le _, .done (by simp [search, meets, hparent])⟩
      · have hround : t.search a (past, some parent) = .again (past + 1, t.parent? parent) := by
          have hguard : ¬ t.size < past + 1 := by omega
          simp [search, hparent, hguard]
        have hsteps : past + 1 + steps = t.size := by omega
        obtain ⟨n, hn, hends⟩ := ih (x := t.parent? parent) hsteps
        refine ⟨n + 1, Nat.succ_le_succ hn, ?_⟩
        rw [meets, beq_eq_false_iff_ne.2 hparent, Bool.false_or]
        exact .again hround hends

/-! ## What they find -/

/-- Every parent has a record. -/
def Closed (t : Table) : Prop := ∀ r ∈ t.records, ∀ p, r.parent = some p → p ∈ t.owners

/-- Every parent has a record, and it stands before those of its children. -/
def ParentsFirst (t : Table) : Prop :=
  ∀ (j : Nat) (r : Record) (p : CallableId), t.records[j]? = some r → r.parent = some p →
    ∃ i < j, ∃ q, t.records[i]? = some q ∧ q.owner = p

theorem Closed.exists_get? (ht : t.Closed) {p : CallableId} (h : t.parent? f = some p) : ∃ r, t.get? p = some r := by
  obtain ⟨q, hq, hqp⟩ := Option.bind_eq_some_iff.1 h
  obtain ⟨r, hr, rfl⟩ := List.mem_map.1 (ht q (mem_of_get? hq) p hqp)
  exact ⟨r, get?_owner hr⟩

/-- In the same number of steps both walks see the same callables. -/
theorem Closed.meets_iff (ht : t.Closed) (a f : CallableId) (steps : Nat) :
    t.meets a steps (t.parent? f) = true ↔ ∃ r ∈ t.ascend steps (t.parent? f), r.owner = a := by
  induction steps generalizing f with
  | zero => simp [meets, ascend]
  | succ steps ih =>
    cases hp : t.parent? f with
    | none => simp [meets, ascend]
    | some p =>
      obtain ⟨r, hr⟩ := ht.exists_get? hp
      have hparent : t.parent? p = r.parent := by simp [parent?, hr]
      have ih := ih p
      rw [hparent] at ih
      simp [meets, ascend, hr, hparent, ih, owner_of_get? hr]

/-- Where parents come first, they end. The induction is on where the record stands. -/
theorem ParentsFirst.exists_chain_of_getElem? (ht : t.ParentsFirst) {j : Nat} {r : Record} (hr : t.records[j]? = some r) :
    ∃ rs, t.Chain r.parent rs := by
  induction j using Nat.strong_induction_on generalizing r with
  | _ j ih =>
    cases hp : r.parent with
    | none => exact ⟨[], .root⟩
    | some p =>
      obtain ⟨i, hi, q, hq, rfl⟩ := ht j r p hr hp
      obtain ⟨rs, hrs⟩ := ih i hi hq
      exact ⟨q :: rs, .step (get?_owner (List.mem_of_getElem? hq)) hrs⟩

theorem ParentsFirst.exists_chain (ht : t.ParentsFirst) (f : CallableId) : ∃ rs, t.Chain (t.parent? f) rs := by
  unfold parent?
  cases hf : t.get? f with
  | none => exact ⟨[], .root⟩
  | some r =>
    obtain ⟨j, hj⟩ := List.mem_iff_getElem?.1 (mem_of_get? hf)
    exact ht.exists_chain_of_getElem? hj

theorem Chain.nodup_owners (h : t.Chain x rs) : (rs.map Record.owner).Nodup := by
  refine List.Nodup.map_on ?_ h.nodup
  intro q hq r hr hqr
  exact List.inj_on_of_nodup_map t.nodup_owners (h.mem_records hq) (h.mem_records hr) hqr

/-- The two walks, for every table in which parents have records, be it that they form cycles, and for any two callables.
The search succeeds exactly if the callable owns one of the records collected. The collecting loop goes on at most once
more than there are records and the search at most as often, and they end with what the table says. If parents come before
their children, the collected records are the whole way from the outermost one to the parent, no owner twice, and the loop
ends because it is at the top, not by its guard. -/
theorem walks_agree (t : Table) (ht : t.Closed) (a f : CallableId) :
    (t.isAncestor a f = true ↔ ∃ r ∈ t.ancestors f, r.owner = a) ∧
    (t.ancestors f).length ≤ t.size + 1 ∧
    (∃ why, Round.Ends t.collect ([], t.parent? f) (t.ancestors f).length (why, t.ancestors f)) ∧
    (∃ n ≤ t.size, Round.Ends (t.search a) (0, t.parent? f) n (t.isAncestor a f)) ∧
    (t.ParentsFirst → t.Chain (t.parent? f) (t.ancestors f).reverse ∧ ((t.ancestors f).map Record.owner).Nodup ∧
      Round.Ends t.collect ([], t.parent? f) (t.ancestors f).length (.top, t.ancestors f)) := by
  refine ⟨?_, ?_, ?_, search_ends (Nat.zero_add _), fun hfirst => ?_⟩
  · rw [isAncestor, ht.meets_iff, ancestors]
    simp only [List.mem_reverse]
  · rw [ancestors, List.length_reverse]
    exact length_ascend_le t _ _
  · rw [ancestors, List.length_reverse]
    exact collect_ends (by simp)
  · obtain ⟨rs, hrs⟩ := hfirst.exists_chain f
    have hlen := hrs.length_le
    rw [hrs.ancestors, List.reverse_reverse, List.map_reverse, List.nodup_reverse, List.length_reverse]
    exact ⟨hrs, hrs.nodup_owners, hrs.collect_ends (by simp; omega)⟩

/-- The table with the records added one after the other, those left out whose owners have one. -/
def insertAll (t : Table) (rs : List Record) : Table := rs.foldl (fun t r => (t.insert? r).getD t) t

/-- The callables from 0 on with the given parents. Their evaluations did nothing. -/
def ofParents (parents : List (Option CallableId)) : Table :=
  empty.insertAll <| parents.zipIdx.map fun (parent, f) =>
    ⟨⟨⟨f⟩, .ofCallable ⟨f⟩⟩, ⟨none, [], ⟨"sample", .dummy⟩⟩, .pure .undefined, parent, .global⟩

/-- Three callables in a ring: each is its own ancestor, and the collecting walk goes once more than round. Three in a row:
the walk ends at the top. -/
theorem walks_agree_ring_and_row :
    let ring := ofParents [some ⟨2⟩, some ⟨0⟩, some ⟨1⟩]
    let row := ofParents [none, some ⟨0⟩, some ⟨1⟩]
    ring.Closed ∧ (∃ r ∈ ring.ancestors ⟨1⟩, r.owner = ⟨1⟩) ∧ (ring.ancestors ⟨1⟩).length = ring.size + 1 ∧
      row.Closed ∧ row.ParentsFirst ∧ ((row.ancestors ⟨2⟩).map Record.owner).Nodup ∧
      Round.Ends row.collect ([], row.parent? ⟨2⟩) 2 (.top, row.ancestors ⟨2⟩) := by
  intro ring row
  have hring : ring.Closed := by
    have hall : ∀ r ∈ ring.records, ∀ p ∈ r.parent, p ∈ ring.owners := by decide +kernel
    exact hall
  have hrow : row.Closed := by
    have hall : ∀ r ∈ row.records, ∀ p ∈ r.parent, p ∈ row.owners := by decide +kernel
    exact hall
  have hfirst : row.ParentsFirst := by
    intro j r p hr hp
    rcases j with _ | _ | _ | j
    · cases hr
      cases hp
    · cases hr
      cases hp
      exact ⟨0, Nat.zero_lt_one, _, rfl, rfl⟩
    · cases hr
      cases hp
      exact ⟨1, Nat.one_lt_two, _, rfl, rfl⟩
    · cases hr
  obtain ⟨hagree, -⟩ := walks_agree ring hring ⟨1⟩ ⟨1⟩
  obtain ⟨-, -, -, -, htop⟩ := walks_agree row hrow ⟨0⟩ ⟨2⟩
  obtain ⟨-, hnodup, hends⟩ := htop hfirst
  exact ⟨hring, hagree.1 rfl, rfl, hrow, hfirst, hnodup, hends⟩

end Table

end Independence
