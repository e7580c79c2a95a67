import Mathlib.Data.List.Nodup
import Independence.Heap.Store
/-!
# Committing effects and undoing them

Committing effects lays their writes over the values of all bindings, and rolling the commit back gives every
written binding the value that it had before, whatever happened in between. Chains of commits lay one
write-set over the other, the last one on top.
-/

namespace Independence

namespace Effects

/-- The values `v` of all bindings with the writes of `e` laid over them. -/
def overlay (e : Effects) (v : Binding → Option Value) (b : Binding) : Option Value :=
  match e.writes[b]? with
  | some site => site.value
  | none => v b

/-- The values `v` with effects laid over them one after the other, the last ones on top. -/
def overlayAll (es : List Effects) (v : Binding → Option Value) : Binding → Option Value :=
  es.foldl (fun v e => e.overlay v) v

theorem overlayAll_append (es fs : List Effects) (v : Binding → Option Value) :
    overlayAll (es ++ fs) v = overlayAll fs (overlayAll es v) := List.foldl_append

theorem overlayAll_concat (es : List Effects) (e : Effects) (v : Binding → Option Value) :
    overlayAll (es ++ [e]) v = e.overlay (overlayAll es v) := overlayAll_append es [e] v

theorem overlay_of_not_mem {e : Effects} {b : Binding} (v : Binding → Option Value)
    (hb : b ∉ e.writes) : e.overlay v b = v b := by
  simp [overlay, Std.ExtTreeMap.getElem?_eq_none hb]

/-- A binding that none of the effects writes keeps its value. -/
theorem overlayAll_of_not_mem {es : List Effects} {b : Binding} (v : Binding → Option Value)
    (hb : ∀ e ∈ es, b ∉ e.writes) : overlayAll es v b = v b := by
  induction es generalizing v with
  | nil => rfl
  | cons e es ih =>
    have h := ih (e.overlay v) fun f hf => hb f (by simp [hf])
    rw [overlay_of_not_mem v (hb e (by simp))] at h
    exact h

end Effects

namespace Heap

theorem get?_of_not_knows {h : Heap} {b : Binding} (hb : h.knows b.object = false) : h.get? b = none := by
  have : h.objects[b.object]? = none := Std.ExtTreeMap.getElem?_eq_none_of_contains_eq_false hb
  simp [get?, this]

theorem get?_foldl_addObject (os : List ObjectId) (h : Heap) (b : Binding) :
    (os.foldl addObject h).get? b = if b.object ∈ os then none else h.get? b := by
  induction os generalizing h with
  | nil => simp
  | cons o os ih =>
    rw [List.foldl_cons, ih, get?_addObject]
    by_cases ho : b.object = o <;> simp [ho]

theorem get?_foldl_dropObject (os : List ObjectId) (h : Heap) (b : Binding) :
    (os.foldl dropObject h).get? b = if b.object ∈ os then none else h.get? b := by
  induction os generalizing h with
  | nil => simp
  | cons o os ih =>
    rw [List.foldl_cons, ih, get?_dropObject]
    by_cases ho : b.object = o <;> simp [ho]

/-! ## Writing many bindings -/

/-- Writes bindings one after the other. -/
def putAll (h : Heap) (ps : List (Binding × Option Value)) : Heap := ps.foldl (fun h p => h.put p.1 p.2) h

theorem get?_putAll_of_not_mem {ps : List (Binding × Option Value)} {b : Binding}
    (hb : b ∉ ps.map Prod.fst) (h : Heap) : (h.putAll ps).get? b = h.get? b := by
  induction ps generalizing h with
  | nil => rfl
  | cons p ps ih =>
    simp only [List.map_cons, List.mem_cons, not_or] at hb
    refine (ih hb.2 (h.put p.1 p.2)).trans ?_
    simp [hb.1]

theorem get?_putAll_of_mem {ps : List (Binding × Option Value)} (hn : (ps.map Prod.fst).Nodup)
    {b : Binding} {v : Option Value} (hb : (b, v) ∈ ps) (h : Heap) : (h.putAll ps).get? b = v := by
  induction ps generalizing h with
  | nil => cases hb
  | cons p ps ih =>
    obtain ⟨hp, hn⟩ := List.nodup_cons.1 hn
    rcases List.mem_cons.1 hb with rfl | hb
    · refine (get?_putAll_of_not_mem hp (h.put b v)).trans ?_
      simp
    · exact ih hn hb (h.put p.1 p.2)

/-- Noting previous values does not change what is written, and of distinct bindings the values noted are
those from before the first write. -/
theorem foldl_putNoting {ws : List (Binding × WriteSite)} (hn : (ws.map Prod.fst).Nodup) (h : Heap)
    (ps : List (Binding × Option Value)) :
    ws.foldl (fun s w => putNoting s w.1 w.2) (h, ps) =
      (h.putAll (ws.map fun w => (w.1, w.2.value)), (ws.map fun w => (w.1, h.get? w.1)).reverse ++ ps) := by
  induction ws generalizing h ps with
  | nil => rfl
  | cons w ws ih =>
    obtain ⟨hw, hn⟩ := List.nodup_cons.1 hn
    -- Later writes are to other bindings, so what they find is from before this one as well.
    have hprev : ws.map (fun u => (u.1, (h.put w.1 w.2.value).get? u.1)) = ws.map fun u => (u.1, h.get? u.1) := by
      refine List.map_congr_left fun u hu => ?_
      have hne : u.1 ≠ w.1 := fun he => hw (he ▸ List.mem_map_of_mem hu)
      simp [hne]
    rw [List.foldl_cons]
    refine (ih hn (h.put w.1 w.2.value) ((w.1, h.get? w.1) :: ps)).trans ?_
    rw [hprev]
    simp [putAll]

/-! ## Commit and rollback -/

theorem nodup_keys (e : Effects) : (e.writes.toList.map Prod.fst).Nodup := by
  rw [List.nodup_iff_pairwise_ne, List.pairwise_map]
  exact e.writes.distinct_keys_toList.imp fun h he => h (by simp [he])

theorem commit_eq (h : Heap) (e : Effects) :
    h.commit e =
      let introduced := e.created.toList.filter (!h.knows ·)
      let known := introduced.foldl addObject h
      (known.putAll (e.writes.toList.map fun w => (w.1, w.2.value)),
        ⟨introduced, (e.writes.toList.map fun w => (w.1, known.get? w.1)).reverse⟩) := by
  simp only [commit, Std.ExtTreeMap.foldl_eq_foldl_toList, foldl_putNoting (nodup_keys e), List.append_nil]

/-- Making unknown objects known leaves every binding as it was. -/
theorem get?_introduced (h : Heap) (os : List ObjectId) (b : Binding) :
    ((os.filter (!h.knows ·)).foldl addObject h).get? b = h.get? b := by
  rw [get?_foldl_addObject]
  split
  · next hb =>
    have hk : h.knows b.object = false := by simpa using (List.mem_filter.1 hb).2
    exact (get?_of_not_knows hk).symm
  · rfl

/-- A commit lays the writes of its effects over the heap. -/
theorem get?_commit (h : Heap) (e : Effects) : (h.commit e).1.get? = e.overlay h.get? := by
  funext b
  rw [commit_eq]
  have hfst : (e.writes.toList.map fun w => (w.1, w.2.value)).map Prod.fst = e.writes.toList.map Prod.fst := by
    simp [Function.comp_def]
  cases hb : e.writes[b]? with
  | some site =>
    have hm : (b, site.value) ∈ e.writes.toList.map fun w => (w.1, w.2.value) :=
      List.mem_map.2 ⟨(b, site), Std.ExtTreeMap.mem_toList_iff_getElem?_eq_some.2 hb, rfl⟩
    simp only [Effects.overlay, hb]
    exact get?_putAll_of_mem (hfst ▸ nodup_keys e) hm _
  | none =>
    have hm : b ∉ e.writes.toList.map Prod.fst := by
      rintro h
      obtain ⟨⟨c, site⟩, hc, rfl⟩ := List.mem_map.1 h
      rw [Std.ExtTreeMap.mem_toList_iff_getElem?_eq_some, hb] at hc
      cases hc
    simp only [Effects.overlay, hb]
    rw [get?_putAll_of_not_mem (hfst ▸ hm), get?_introduced]

/-- What is left of a heap `after` when a commit onto `h` is rolled back: every binding that the commit wrote
and every binding of an object that it introduced is as in `h`, every other one as in `after`. -/
theorem get?_rollback_commit (h after : Heap) (e : Effects) (b : Binding) :
    (after.rollback (h.commit e).2).get? b =
      if b ∈ e.writes ∨ (b.object ∈ e.created ∧ h.knows b.object = false) then h.get? b else after.get? b := by
  rw [commit_eq]
  simp only [rollback, get?_foldl_dropObject, List.mem_filter, Std.ExtTreeSet.mem_toList, Bool.not_eq_true']
  by_cases ho : b.object ∈ e.created ∧ h.knows b.object = false
  · simp [ho, get?_of_not_knows ho.2]
  · simp only [ho, if_false, or_false]
    have hfst : ((e.writes.toList.map fun w => (w.1, h.get? w.1)).reverse).map Prod.fst =
        (e.writes.toList.map Prod.fst).reverse := by simp [Function.comp_def]
    simp only [get?_introduced]
    split
    · next hb =>
      obtain ⟨site, hsite⟩ := Option.isSome_iff_exists.1 (Std.ExtTreeMap.mem_iff_isSome_getElem?.1 hb)
      refine get?_putAll_of_mem (hfst ▸ List.nodup_reverse.2 (nodup_keys e)) ?_ after
      rw [List.mem_reverse]
      exact List.mem_map.2 ⟨(b, site), Std.ExtTreeMap.mem_toList_iff_getElem?_eq_some.2 hsite, rfl⟩
    · next hb =>
      refine get?_putAll_of_not_mem (hfst ▸ ?_) after
      rw [List.mem_reverse, Std.ExtTreeMap.map_fst_toList_eq_keys, Std.ExtTreeMap.mem_keys]
      exact hb

end Heap

end Independence
