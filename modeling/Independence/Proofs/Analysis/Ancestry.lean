import Mathlib.Data.List.Nodup
import Mathlib.Data.List.Perm.Subperm
import Mathlib.Data.Nat.Find
import Mathlib.Logic.Relation
import Independence.Analysis.Table
/-!
# Chains of parents

The parents of a record lead from record to record. Where they end, they repeat no record, so the bounded walks of
the table see all of them. Whether they end or not, a walk meets every ancestor within the steps that it has.
-/

namespace Independence.Table

variable {t t' : Table} {x : Option CallableId} {f g a : CallableId} {r : Record} {rs : List Record}

/-! ## Look-up -/

/-- No two records have the same owner, since the index has one place for it. -/
theorem nodup_owners (t : Table) : (t.records.map Record.owner).Nodup := by
  refine List.nodup_iff_getElem?_ne_getElem?.2 fun i j hij hj heq => ?_
  have hplace := List.getElem?_eq_getElem hj
  rw [hplace, List.getElem?_map, ← t.indexed] at heq
  rw [List.getElem?_map, ← t.indexed, heq] at hplace
  exact Nat.ne_of_lt hij (Option.some.inj hplace)

theorem mem_of_get? (h : t.get? f = some r) : r ∈ t.records := by
  obtain ⟨i, -, hr⟩ := Option.bind_eq_some_iff.1 h
  exact List.mem_of_getElem? hr

theorem owner_of_get? (h : t.get? f = some r) : r.owner = f := by
  obtain ⟨i, hi, hr⟩ := Option.bind_eq_some_iff.1 h
  simpa [hr] using (t.indexed f i).1 hi

theorem get?_owner (h : r ∈ t.records) : t.get? r.owner = some r := by
  obtain ⟨i, hi⟩ := List.mem_iff_getElem?.1 h
  have hindex : t.index[r.owner]? = some i := (t.indexed r.owner i).2 (by rw [hi]; rfl)
  rw [get?, hindex]
  exact hi

theorem get?_eq_some_iff : t.get? f = some r ↔ r ∈ t.records ∧ r.owner = f :=
  ⟨fun h => ⟨mem_of_get? h, owner_of_get? h⟩, fun ⟨hr, hf⟩ => hf ▸ get?_owner hr⟩

/-- The index finds what a search through the records finds. -/
theorem get?_eq_find? (t : Table) (f : CallableId) : t.get? f = t.records.find? (·.owner == f) := by
  cases hfind : t.records.find? (·.owner == f) with
  | some r => exact get?_eq_some_iff.2 ⟨List.mem_of_find?_eq_some hfind, by simpa using List.find?_some hfind⟩
  | none =>
    refine Option.eq_none_iff_forall_ne_some.2 fun r hr => ?_
    have hother := List.find?_eq_none.1 hfind r (mem_of_get? hr)
    exact hother (by simpa using owner_of_get? hr)

theorem contains_iff : t.contains f = true ↔ f ∈ t.owners := by
  rw [contains, ← Std.ExtTreeMap.mem_iff_contains, Std.ExtTreeMap.mem_iff_isSome_getElem?, Option.isSome_iff_exists,
    owners, List.mem_iff_getElem?]
  simp only [t.indexed, List.getElem?_map]

theorem contains_eq (t : Table) (f : CallableId) : t.contains f = t.owners.contains f := by
  rw [Bool.eq_iff_iff, contains_iff, List.contains_iff_mem]

theorem parent?_owner (h : r ∈ t.records) : t.parent? r.owner = r.parent := by
  simp [parent?, get?_owner h]

theorem mem_owners_of_parent? (h : t.parent? f = some g) : f ∈ t.owners := by
  obtain ⟨r, hr, -⟩ := Option.bind_eq_some_iff.1 h
  exact List.mem_map.2 ⟨r, mem_of_get? hr, owner_of_get? hr⟩

theorem records_insert? (h : t.insert? r = some t') : t'.records = t.records ++ [r] := by
  unfold insert? at h
  split at h
  · cases h
  · cases h
    rfl

theorem mem_records_insert? (h : t.insert? r = some t') {q : Record} : q ∈ t'.records ↔ q ∈ t.records ∨ q = r := by
  rw [records_insert? h, List.mem_append, List.mem_singleton]

theorem owner_notMem_of_insert? (h : t.insert? r = some t') : r.owner ∉ t.owners := by
  unfold insert? at h
  split at h
  · cases h
  · next hnew => exact fun hmem => hnew (contains_iff.2 hmem)

/-- A record whose owner has none can be added. -/
theorem exists_insert? (h : r.owner ∉ t.owners) : ∃ t', t.insert? r = some t' :=
  ⟨_, dif_neg fun hold => h (contains_iff.1 hold)⟩

/-- Adding a record changes no look-up that found one. -/
theorem get?_insert? (h : t.insert? r = some t') {q : Record} (hq : t.get? f = some q) : t'.get? f = some q := by
  obtain ⟨hmem, howner⟩ := get?_eq_some_iff.1 hq
  exact get?_eq_some_iff.2 ⟨(mem_records_insert? h).2 (.inl hmem), howner⟩

/-! ## Chains that end -/

/-- The records that the parents lead to, from `x` on, until there is no parent. -/
inductive Chain (t : Table) : Option CallableId → List Record → Prop
  | root : Chain t none []
  | step {f : CallableId} {r : Record} {rs : List Record} (hr : t.get? f = some r) (hrs : Chain t r.parent rs) :
    Chain t (some f) (r :: rs)

namespace Chain

theorem unique (h : t.Chain x rs) {rs' : List Record} (h' : t.Chain x rs') : rs = rs' := by
  induction h generalizing rs' with
  | root =>
    cases h'
    rfl
  | step hr _ ih =>
    cases h' with
    | step hr' hrs' =>
      rw [hr] at hr'
      cases hr'
      rw [ih hrs']

theorem mem_records (h : t.Chain x rs) (hr : r ∈ rs) : r ∈ t.records := by
  induction h with
  | root => cases hr
  | step hg _ ih =>
    rcases List.mem_cons.1 hr with rfl | hr
    · exact mem_of_get? hg
    · exact ih hr

/-- A chain begins where it says. -/
theorem eq_head (h : t.Chain x rs) : x = rs.head?.map Record.owner := by
  cases h with
  | root => rfl
  | step hg _ => simp [owner_of_get? hg]

/-- From each record of a chain a chain leads on that is no longer. -/
theorem of_mem (h : t.Chain x rs) (hr : r ∈ rs) :
    ∃ rest, t.Chain r.parent rest ∧ rest.length < rs.length := by
  induction h with
  | root => cases hr
  | step hg hrs ih =>
    rcases List.mem_cons.1 hr with rfl | hr
    · exact ⟨_, hrs, Nat.lt_succ_self _⟩
    · obtain ⟨rest, hrest, hlen⟩ := ih hr
      exact ⟨rest, hrest, Nat.lt_succ_of_lt hlen⟩

/-- No record is met twice. -/
theorem nodup (h : t.Chain x rs) : rs.Nodup := by
  induction h with
  | root => exact List.nodup_nil
  | step hg hrs ih =>
    refine List.nodup_cons.2 ⟨fun hr => ?_, ih⟩
    obtain ⟨rest, hrest, hlen⟩ := hrs.of_mem hr
    rw [hrs.unique hrest] at hlen
    exact Nat.lt_irrefl _ hlen

theorem length_le (h : t.Chain x rs) : rs.length ≤ t.size :=
  (h.nodup.subperm fun _ hr => h.mem_records hr).length_le

theorem ascend (h : t.Chain x rs) {steps : Nat} (hs : rs.length ≤ steps) : t.ascend steps x = rs := by
  induction h generalizing steps with
  | root => cases steps <;> rfl
  | step hg _ ih =>
    cases steps with
    | zero => simp at hs
    | succ steps =>
      simp only [Table.ascend, hg]
      rw [ih (Nat.le_of_succ_le_succ hs)]

/-- The ancestors of a callable are the chain from its parent, outermost first. -/
theorem ancestors (h : t.Chain (t.parent? f) rs) : t.ancestors f = rs.reverse := by
  rw [Table.ancestors, h.ascend (Nat.le_succ_of_le h.length_le)]

/-- A chain stays when records are added. -/
theorem mono (h : t.Chain x rs) (ht : ∀ f r, t.get? f = some r → t'.get? f = some r) : t'.Chain x rs := by
  induction h with
  | root => exact .root
  | step hg _ ih => exact .step (ht _ _ hg) ih

end Chain

/-! ## Ancestors -/

/-- The parents lead from `f` to `a`. -/
def Ancestor (t : Table) (a f : CallableId) : Prop :=
  Relation.TransGen (fun g h => t.parent? g = some h) f a

/-- The ancestors of a callable are its parent and those of its parent. -/
theorem ancestor_head_iff : t.Ancestor a f ↔ ∃ g, t.parent? f = some g ∧ (g = a ∨ t.Ancestor a g) := by
  unfold Ancestor
  rw [Relation.TransGen.head'_iff]
  refine exists_congr fun g => and_congr_right fun _ => ?_
  rw [Relation.reflTransGen_iff_eq_or_transGen, eq_comm]

/-- Where the parents of `f` end, its ancestors are the owners of the records on the way. -/
theorem Chain.ancestor_iff (h : t.Chain (t.parent? f) rs) : t.Ancestor a f ↔ ∃ r ∈ rs, r.owner = a := by
  generalize hx : t.parent? f = x at h
  induction h generalizing f with
  | root =>
    rw [ancestor_head_iff]
    simp [hx]
  | step hg _ ih =>
    have hparent := parent?_owner (mem_of_get? hg)
    rw [owner_of_get? hg] at hparent
    rw [ancestor_head_iff]
    simp [hx, ih hparent, owner_of_get? hg]

theorem ancestor_of_meets {steps : Nat} (h : t.meets a steps (t.parent? f) = true) : t.Ancestor a f := by
  induction steps generalizing f with
  | zero => cases h
  | succ steps ih =>
    cases hp : t.parent? f with
    | none =>
      rw [hp] at h
      cases h
    | some p =>
      rw [hp, meets, Bool.or_eq_true, beq_iff_eq] at h
      rcases h with rfl | h
      · exact .single hp
      · exact .head hp (ih h)

/-- Where so many parents lead. -/
def up (t : Table) : Nat → CallableId → Option CallableId
  | 0, f => some f
  | k + 1, f => (t.up k f).bind t.parent?

theorem up_add (t : Table) (i j : Nat) (f : CallableId) : t.up (i + j) f = (t.up i f).bind (t.up j) := by
  induction j with
  | zero => simp [up]
  | succ j ih =>
    rw [← Nat.add_assoc, up, ih, Option.bind_assoc]
    rfl

theorem exists_up_of_ancestor (h : t.Ancestor a f) : ∃ k, t.up (k + 1) f = some a := by
  induction h with
  | single hp => exact ⟨0, by simpa [up] using hp⟩
  | tail _ hp ih =>
    obtain ⟨k, hk⟩ := ih
    exact ⟨k + 1, by rw [up, hk]; exact hp⟩

theorem meets_of_up {k steps : Nat} (h : t.up (k + 1) f = some a) (hk : k < steps) :
    t.meets a steps (t.parent? f) = true := by
  induction k generalizing f steps with
  | zero =>
    obtain ⟨steps, rfl⟩ := Nat.exists_eq_succ_of_ne_zero (Nat.ne_of_gt hk)
    have hp : t.parent? f = some a := by simpa [up] using h
    simp [hp, meets]
  | succ k ih =>
    obtain ⟨steps, rfl⟩ := Nat.exists_eq_succ_of_ne_zero (Nat.ne_of_gt (Nat.zero_lt_of_lt hk))
    rw [Nat.add_comm, up_add] at h
    obtain ⟨p, hp, hrest⟩ := Option.bind_eq_some_iff.1 h
    have hp : t.parent? f = some p := by simpa [up] using hp
    simp [hp, meets, ih hrest (Nat.lt_of_succ_lt_succ hk)]

/-- The shortest way to an ancestor repeats no callable on the way. -/
theorem exists_short_up (h : t.Ancestor a f) : ∃ k ≤ t.size, t.up (k + 1) f = some a := by
  classical
  have hex := exists_up_of_ancestor h
  refine ⟨Nat.find hex, ?_, Nat.find_spec hex⟩
  have hne : ∀ i j, i < j → j < Nat.find hex → t.up (i + 1) f ≠ t.up (j + 1) f := by
    -- A callable met twice could be left out of the way.
    intro i j hij hj he
    refine Nat.find_min hex (m := i + (Nat.find hex - j)) (by omega) ?_
    have hsplit : i + (Nat.find hex - j) + 1 = (i + 1) + (Nat.find hex - j) := by omega
    rw [hsplit, up_add, he, ← up_add, show j + 1 + (Nat.find hex - j) = Nat.find hex + 1 by omega]
    exact Nat.find_spec hex
  have hnodup : ((List.range (Nat.find hex)).map fun i => t.up (i + 1) f).Nodup := by
    refine List.Nodup.map_on (fun i hi j hj he => ?_) List.nodup_range
    have hi := List.mem_range.1 hi
    have hj := List.mem_range.1 hj
    by_contra hij
    rcases Nat.lt_or_gt_of_ne hij with hlt | hlt
    · exact hne i j hlt hj he
    · exact hne j i hlt hi he.symm
  have hsub : ((List.range (Nat.find hex)).map fun i => t.up (i + 1) f) ⊆ t.owners.map some := by
    intro y hy
    obtain ⟨i, hi, rfl⟩ := List.mem_map.1 hy
    have hi := List.mem_range.1 hi
    have hup := Nat.find_spec hex
    rw [show Nat.find hex + 1 = (i + 1) + 1 + (Nat.find hex - i - 1) by omega, up_add] at hup
    obtain ⟨q, hq, -⟩ := Option.bind_eq_some_iff.1 hup
    obtain ⟨p, hp, hpq⟩ := Option.bind_eq_some_iff.1 hq
    rw [hp]
    exact List.mem_map_of_mem (mem_owners_of_parent? hpq)
  have hlen := (hnodup.subperm hsub).length_le
  simpa [owners, size] using hlen

/-- The bounded walk meets exactly the ancestors, cycles or not. -/
theorem isAncestor_iff : t.isAncestor a f = true ↔ t.Ancestor a f := by
  constructor
  · exact ancestor_of_meets
  · intro h
    obtain ⟨k, hk, hup⟩ := exists_short_up h
    exact meets_of_up hup (Nat.lt_succ_of_le hk)

end Independence.Table
