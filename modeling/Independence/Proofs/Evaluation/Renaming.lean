import Independence.Evaluation.Run
import Independence.Proofs.Program.Objects
/-!
# Renaming objects

Objects are known by number, and the numbers of new objects depend on how many were handed out before. Two
evaluations of one call are therefore compared up to a renaming of objects. A renaming acts on everything that
mentions objects; the lemmas say how it passes through the sets and maps in which an evaluation collects what
it does.
-/

namespace Independence

section Definitions
variable (f : ObjectId → ObjectId)

def Binding.rename (b : Binding) : Binding := ⟨f b.object, b.key⟩

def Value.rename : Value → Value
  | .object o => .object (f o)
  | v => v

def WriteSite.rename (s : WriteSite) : WriteSite := ⟨s.location, s.value.map (Value.rename f)⟩

def Completion.rename : Completion → Completion
  | .normal v => .normal (v.rename f)
  | .abrupt a => .abrupt a
  | .possiblyAbrupt v a => .possiblyAbrupt (v.rename f) a

def ObjectSet.rename (s : ObjectSet) : ObjectSet := .ofList (s.toList.map f)

def WriteSet.rename (w : WriteSet) : WriteSet :=
  .ofList (w.toList.map fun p => (p.1.rename f, p.2.rename f))

def Effects.rename (e : Effects) : Effects :=
  ⟨e.result.rename f, ObjectSet.rename f e.created, WriteSet.rename f e.writes⟩

def SideEffect.rename (e : SideEffect) : SideEffect :=
  match e.kind with
  | .assignedGlobal _ => e
  | .wroteProperty b => { e with kind := .wroteProperty (b.rename f) }

def Event.rename : Event → Event
  | .sideEffect e => .sideEffect (e.rename f)
  | .register r => .register { r with target := r.target.rename f }
  | .read b location => .read (b.rename f) location
  | .enumerate o location => .enumerate (f o) location
  | .enter g => .enter g
  | .exit g => .exit g

end Definitions

variable {f g : ObjectId → ObjectId}

/-! ## Renaming with what is mentioned fixed -/

theorem Value.rename_congr {v : Value} (h : v.AllObjects fun o => f o = g o) : v.rename f = v.rename g := by
  cases v with
  | object o => exact congrArg Value.object h
  | _ => rfl

theorem Value.rename_eq_self {v : Value} (h : v.AllObjects fun o => f o = o) : v.rename f = v := by
  cases v with
  | object o => exact congrArg Value.object h
  | _ => rfl

theorem Completion.rename_congr {c : Completion} (h : c.AllObjects fun o => f o = g o) : c.rename f = c.rename g := by
  cases c with
  | normal v => exact congrArg Completion.normal (Value.rename_congr h)
  | abrupt a => rfl
  | possiblyAbrupt v a => exact congrArg (Completion.possiblyAbrupt · a) (Value.rename_congr h)

theorem Completion.rename_eq_self {c : Completion} (h : c.AllObjects fun o => f o = o) : c.rename f = c := by
  cases c with
  | normal v => exact congrArg Completion.normal (Value.rename_eq_self h)
  | abrupt a => rfl
  | possiblyAbrupt v a => exact congrArg (Completion.possiblyAbrupt · a) (Value.rename_eq_self h)

@[simp] theorem Value.rename_id (v : Value) : v.rename id = v := by
  cases v <;> rfl

@[simp] theorem Binding.rename_id (b : Binding) : b.rename id = b := rfl

@[simp] theorem WriteSite.rename_id (s : WriteSite) : s.rename id = s := by
  obtain ⟨l, v⟩ := s
  cases v <;> simp [WriteSite.rename]

@[simp] theorem SideEffect.rename_id (e : SideEffect) : e.rename id = e := by
  obtain ⟨kind, l⟩ := e
  cases kind <;> rfl

@[simp] theorem Event.rename_id (e : Event) : e.rename id = e := by
  cases e with
  | sideEffect e => simp [Event.rename]
  | register r => simp [Event.rename]
  | _ => rfl

@[simp] theorem Completion.rename_id (c : Completion) : c.rename id = c := by
  cases c <;> simp [Completion.rename]

@[simp] theorem Value.rename_rename (v : Value) : (v.rename f).rename g = v.rename (g ∘ f) := by
  cases v <;> rfl

@[simp] theorem Completion.rename_rename (c : Completion) : (c.rename f).rename g = c.rename (g ∘ f) := by
  cases c <;> simp [Completion.rename]

/-! ## Injective renaming -/

theorem Binding.rename_inj (hf : Function.Injective f) {b c : Binding} : b.rename f = c.rename f ↔ b = c := by
  obtain ⟨o, k⟩ := b
  obtain ⟨p, l⟩ := c
  simp [Binding.rename, hf.eq_iff]

theorem Value.rename_beq (hf : Function.Injective f) (v w : Value) : (v.rename f == w.rename f) = (v == w) := by
  cases v with
  | object o =>
    cases w with
    | object p =>
      change (f o == f p) = (o == p)
      rw [Bool.eq_iff_iff, beq_iff_eq, beq_iff_eq, hf.eq_iff]
    | _ => rfl
  | _ => cases w <;> rfl

namespace ObjectSet

theorem mem_rename {s : ObjectSet} {o : ObjectId} : o ∈ rename f s ↔ ∃ a ∈ s, f a = o := by
  simp [rename, Std.ExtTreeSet.mem_ofList]

@[simp] theorem rename_empty : rename f ∅ = ∅ := by
  refine Std.ExtTreeSet.ext_mem fun o => ?_
  simp [mem_rename]

theorem rename_insert (s : ObjectSet) (o : ObjectId) : rename f (s.insert o) = (rename f s).insert (f o) := by
  refine Std.ExtTreeSet.ext_mem fun p => ?_
  simp only [mem_rename, Std.ExtTreeSet.mem_insert, Std.compare_eq_iff_eq]
  constructor
  · rintro ⟨a, rfl | ha, rfl⟩
    · exact .inl rfl
    · exact .inr ⟨a, ha, rfl⟩
  · rintro (rfl | ⟨a, ha, rfl⟩)
    · exact ⟨o, .inl rfl, rfl⟩
    · exact ⟨a, .inr ha, rfl⟩

theorem contains_rename (hf : Function.Injective f) (s : ObjectSet) (o : ObjectId) :
    (rename f s).contains (f o) = s.contains o := by
  rw [Bool.eq_iff_iff, ← Std.ExtTreeSet.mem_iff_contains, ← Std.ExtTreeSet.mem_iff_contains, mem_rename]
  constructor
  · rintro ⟨a, ha, he⟩
    exact hf he ▸ ha
  · exact fun ho => ⟨o, ho, rfl⟩

theorem rename_congr {s : ObjectSet} (h : ∀ o ∈ s, f o = g o) : rename f s = rename g s := by
  unfold rename
  rw [List.map_congr_left fun o ho => h o (Std.ExtTreeSet.mem_toList.1 ho)]

@[simp] theorem rename_id (s : ObjectSet) : rename id s = s := by
  refine Std.ExtTreeSet.ext_mem fun o => ?_
  simp [mem_rename]

theorem rename_rename (s : ObjectSet) : rename g (rename f s) = rename (g ∘ f) s := by
  refine Std.ExtTreeSet.ext_mem fun o => ?_
  simp [mem_rename]

/-! ## From one set to another -/

/-- The `i`-th object of `s` becomes the `i`-th object of `t`, every other one stays. -/
def matching (s t : ObjectSet) (a : ObjectId) : ObjectId :=
  match s.toList.idxOf? a with
  | some i => t.toList.getD i a
  | none => a

theorem matching_of_not_mem {s : ObjectSet} (t : ObjectSet) {a : ObjectId} (ha : a ∉ s) : matching s t a = a := by
  have h : s.toList.idxOf? a = none := by
    rw [List.idxOf?_eq_none_iff, Std.ExtTreeSet.mem_toList]
    exact ha
  simp [matching, h]

/-- A renaming that keeps the order of a set keeps the positions of its elements. -/
theorem toList_rename {s : ObjectSet} (hf : ∀ a ∈ s, ∀ b ∈ s, compare a b = .lt → compare (f a) (f b) = .lt) :
    (rename f s).toList = s.toList.map f := by
  have hs : (s.toList.map f).Pairwise fun a b => compare a b = .lt := by
    rw [List.pairwise_map]
    refine List.Pairwise.imp_of_mem (fun ha hb h => ?_) s.ordered_toList
    exact hf _ (Std.ExtTreeSet.mem_toList.1 ha) _ (Std.ExtTreeSet.mem_toList.1 hb) h
  have hnodup : ∀ {l : List ObjectId}, l.Pairwise (fun a b => compare a b = .lt) → l.Nodup := fun h =>
    h.imp fun h he => by simp [he] at h
  refine List.Perm.eq_of_pairwise (fun a b _ _ hab hba => ?_) (rename f s).ordered_toList hs ?_
  · have hswap : compare b a = (compare a b).swap := Std.OrientedCmp.eq_swap
    rw [hswap, hab] at hba
    cases hba
  · rw [List.perm_ext_iff_of_nodup (hnodup (rename f s).ordered_toList) (hnodup hs)]
    intro a
    simp [mem_rename]

theorem size_rename {s : ObjectSet} (hf : ∀ a ∈ s, ∀ b ∈ s, compare a b = .lt → compare (f a) (f b) = .lt) :
    (rename f s).size = s.size := by
  have hlength := congrArg List.length (toList_rename hf)
  rwa [List.length_map, Std.ExtTreeSet.length_toList, Std.ExtTreeSet.length_toList] at hlength

/-- Where two renamings keep the order of a set, one leads from its image under the first to its image under the second. -/
theorem matching_rename_rename {s : ObjectSet}
    (hf : ∀ a ∈ s, ∀ b ∈ s, compare a b = .lt → compare (f a) (f b) = .lt)
    (hg : ∀ a ∈ s, ∀ b ∈ s, compare a b = .lt → compare (g a) (g b) = .lt) {a : ObjectId} (ha : a ∈ s) :
    matching (rename f s) (rename g s) (f a) = g a := by
  have hinj : ∀ b ∈ s, f b = f a → b = a := by
    intro b hb h
    cases hcmp : compare b a with
    | eq => exact Std.compare_eq_iff_eq.1 hcmp
    | lt =>
      have hlt := hf b hb a ha hcmp
      rw [h] at hlt
      simp at hlt
    | gt =>
      have hlt := hf a ha b hb (Std.OrientedCmp.gt_iff_lt.1 hcmp)
      rw [h] at hlt
      simp at hlt
  obtain ⟨i, hi⟩ := Option.isSome_iff_exists.1 (List.isSome_idxOf?.2 (Std.ExtTreeSet.mem_toList.2 ha))
  obtain ⟨hlt, hget, hfirst⟩ := List.idxOf?_eq_some_iff.1 hi
  have himage : (s.toList.map f).idxOf? (f a) = some i := by
    refine List.idxOf?_eq_some_iff.2 ⟨by simpa using hlt, by simp [hget], fun j hj h => hfirst j hj ?_⟩
    rw [List.getElem_map] at h
    exact hinj _ (Std.ExtTreeSet.mem_toList.1 (List.getElem_mem _)) h
  simp [matching, toList_rename hf, toList_rename hg, himage, List.getD_eq_getElem?_getD, List.getElem?_eq_getElem hlt,
    hget]

/-- On a set whose order it keeps, a renaming is the one from the set to its image. -/
theorem matching_rename {s : ObjectSet} (hf : ∀ a ∈ s, ∀ b ∈ s, compare a b = .lt → compare (f a) (f b) = .lt)
    {a : ObjectId} (ha : a ∈ s) : matching s (rename f s) a = f a := by
  have h := matching_rename_rename (f := id) (fun _ _ _ _ h => h) hf ha
  rwa [rename_id] at h

end ObjectSet

namespace WriteSet

/-- A renaming that keeps the written bindings apart renames one write after the other. -/
theorem getElem?_rename_iff_of_injOn {w : WriteSet} (hw : ∀ b ∈ w, ∀ c ∈ w, b.rename f = c.rename f → b = c)
    {c : Binding} {t : WriteSite} : (rename f w)[c]? = some t ↔
      ∃ (b : Binding) (s : WriteSite), w[b]? = some s ∧ b.rename f = c ∧ s.rename f = t := by
  have hkey : ∀ {p : Binding × WriteSite}, p ∈ w.toList → p.1 ∈ w := fun hp =>
    Std.ExtTreeMap.mem_iff_isSome_getElem?.2 (by simp [Std.ExtTreeMap.mem_toList_iff_getElem?_eq_some.1 hp])
  have hd : (w.toList.map fun p => (p.1.rename f, p.2.rename f)).Pairwise
      fun a b => ¬ compare a.1 b.1 = .eq := by
    rw [List.pairwise_map]
    refine w.distinct_keys_toList.imp_of_mem fun ha hb h he => h ?_
    rw [Std.compare_eq_iff_eq] at he
    simp [hw _ (hkey ha) _ (hkey hb) he]
  have hmem : ∀ {b : Binding} {s : WriteSite}, w[b]? = some s → (rename f w)[b.rename f]? = some (s.rename f) := by
    intro b s hb
    refine Std.ExtTreeMap.getElem?_ofList_of_mem (by simp) hd (List.mem_map.2 ⟨(b, s), ?_, rfl⟩)
    exact Std.ExtTreeMap.mem_toList_iff_getElem?_eq_some.2 hb
  constructor
  · intro h
    have hc : c ∈ rename f w := Std.ExtTreeMap.mem_iff_isSome_getElem?.2 (by simp [h])
    simp only [rename, Std.ExtTreeMap.mem_ofList, List.contains_iff_mem, List.map_map, List.mem_map,
      Function.comp_apply] at hc
    obtain ⟨⟨b, s⟩, hb, rfl⟩ := hc
    have hb := Std.ExtTreeMap.mem_toList_iff_getElem?_eq_some.1 hb
    rw [hmem hb, Option.some_inj] at h
    exact ⟨b, s, hb, rfl, h⟩
  · rintro ⟨b, s, hb, rfl, rfl⟩
    exact hmem hb

theorem getElem?_rename_eq_some (hf : Function.Injective f) {w : WriteSet} {c : Binding} {t : WriteSite} :
    (rename f w)[c]? = some t ↔
      ∃ (b : Binding) (s : WriteSite), w[b]? = some s ∧ b.rename f = c ∧ s.rename f = t :=
  getElem?_rename_iff_of_injOn fun _ _ _ _ => (Binding.rename_inj hf).1

theorem getElem?_rename (hf : Function.Injective f) (w : WriteSet) (b : Binding) :
    (rename f w)[b.rename f]? = w[b]?.map (WriteSite.rename f) := by
  refine Option.ext fun t => ?_
  rw [getElem?_rename_eq_some hf, Option.map_eq_some_iff]
  constructor
  · rintro ⟨c, s, hc, he, rfl⟩
    rw [Binding.rename_inj hf] at he
    exact ⟨s, he ▸ hc, rfl⟩
  · rintro ⟨s, hs, rfl⟩
    exact ⟨b, s, hs, rfl, rfl⟩

@[simp] theorem rename_empty : rename f ∅ = ∅ := rfl

theorem rename_insert (hf : Function.Injective f) (w : WriteSet) (b : Binding) (s : WriteSite) :
    rename f (w.insert b s) = (rename f w).insert (b.rename f) (s.rename f) := by
  refine Std.ExtTreeMap.ext_getElem? fun {c} => Option.ext fun t => ?_
  simp only [getElem?_rename_eq_some hf, Std.ExtTreeMap.getElem?_insert, Std.compare_eq_iff_eq]
  constructor
  · rintro ⟨d, u, hd, rfl, rfl⟩
    by_cases h : b = d
    · simp_all
    · rw [if_neg h] at hd
      rw [if_neg (by rwa [Binding.rename_inj hf]), getElem?_rename hf, hd]
      rfl
  · intro h
    split at h
    · next hc => exact ⟨b, s, by simp, hc, Option.some_inj.1 h⟩
    · next hc =>
      obtain ⟨d, u, hd, rfl, rfl⟩ := (getElem?_rename_eq_some hf).1 h
      rw [Binding.rename_inj hf] at hc
      exact ⟨d, u, by rw [if_neg hc, hd], rfl, rfl⟩

@[simp] theorem rename_id (w : WriteSet) : rename id w = w := by
  refine Std.ExtTreeMap.ext_getElem? fun {b} => ?_
  have h := getElem?_rename (f := id) Function.injective_id w b
  rw [Binding.rename_id] at h
  rw [h]
  cases w[b]? <;> simp

/-- Renamings that agree on what a write-set mentions rename it alike. -/
theorem rename_congr {w : WriteSet}
    (h : ∀ (b : Binding) (s : WriteSite), w[b]? = some s → b.rename f = b.rename g ∧ s.rename f = s.rename g) :
    rename f w = rename g w := by
  unfold rename
  rw [List.map_congr_left]
  rintro ⟨b, s⟩ hb
  obtain ⟨hb, hs⟩ := h b s (Std.ExtTreeMap.mem_toList_iff_getElem?_eq_some.1 hb)
  exact Prod.ext hb hs

/-- Two renamings one after the other, the second of which keeps apart what the first one leaves. -/
theorem rename_rename (hf : Function.Injective f) {w : WriteSet}
    (hg : ∀ b ∈ w, ∀ c ∈ w, b.rename (g ∘ f) = c.rename (g ∘ f) → b = c) :
    rename g (rename f w) = rename (g ∘ f) w := by
  have hmem : ∀ b ∈ rename f w, ∃ a ∈ w, a.rename f = b := by
    intro b hb
    obtain ⟨s, hs⟩ := Option.isSome_iff_exists.1 (Std.ExtTreeMap.mem_iff_isSome_getElem?.1 hb)
    obtain ⟨a, u, ha, rfl, -⟩ := (getElem?_rename_eq_some hf).1 hs
    exact ⟨a, Std.ExtTreeMap.mem_iff_isSome_getElem?.2 (by simp [ha]), rfl⟩
  have hinj : ∀ b ∈ rename f w, ∀ c ∈ rename f w, b.rename g = c.rename g → b = c := by
    intro b hb c hc h
    obtain ⟨a, ha, rfl⟩ := hmem b hb
    obtain ⟨a', ha', rfl⟩ := hmem c hc
    rw [hg a ha a' ha' h]
  have hsite : ∀ s : WriteSite, (s.rename f).rename g = s.rename (g ∘ f) := fun s => by
    simp [WriteSite.rename, Function.comp_def]
  refine Std.ExtTreeMap.ext_getElem? fun {c} => Option.ext fun t => ?_
  rw [getElem?_rename_iff_of_injOn hinj, getElem?_rename_iff_of_injOn hg]
  constructor
  · rintro ⟨b, s, hb, rfl, rfl⟩
    obtain ⟨a, u, ha, rfl, rfl⟩ := (getElem?_rename_eq_some hf).1 hb
    exact ⟨a, u, ha, rfl, (hsite u).symm⟩
  · rintro ⟨a, u, ha, rfl, rfl⟩
    exact ⟨a.rename f, u.rename f, (getElem?_rename_eq_some hf).2 ⟨a, u, ha, rfl, rfl⟩, rfl, hsite u⟩

end WriteSet

@[simp] theorem Effects.rename_id (e : Effects) : e.rename id = e := by
  simp [Effects.rename]

end Independence
