import Independence.Proofs.Analysis.Ancestry
import Independence.Proofs.Analysis.Processing
/-!
# What discovery finds

While candidates are discovered, the open commits are those of the records that enclose the one in progress, and
each record was captured under the commits of its own ancestors. Both stay true however deep candidates are nested
and whatever fails, because every commit is undone on the way out.
-/

namespace Independence

variable {m₀ m m' : Model} {t t' : Table} {r : Record} {opened above : List Record} {frames : List Frame}
  {s s' : Session Model}

/-! ## What depends on the program alone -/

theorem Names.resolve_congr (names : Names) (h : m'.functions = m.functions) : names.resolve m' = names.resolve m := by
  funext f
  simp [resolve, Evaluator.signature?, Model.signature?, Model.function?, h]

theorem Evaluator.signature?_congr (h : m'.functions = m.functions) : signature? m' = signature? m := by
  funext f
  simp [Evaluator.signature?, Model.signature?, Model.function?, h]

theorem Evaluator.candidate?_congr (h : m'.roots = m.roots) : candidate? m' = candidate? m := by
  funext v
  cases v <;> simp [candidate?, compositeRoot?, Model.compositeRoot?, h]

/-- What a call does depends on who is called and from where, not on its placeholders. -/
theorem Model.evaluate_congr {σ : Type} (o : Observer σ) {c c' : Call} (hcallee : c.callee = c'.callee)
    (hlocation : c.location = c'.location) : Model.evaluate o c = Model.evaluate o c' := by
  funext s
  simp only [evaluate, hcallee, hlocation]

theorem Model.traceOf_congr (m : Model) {c c' : Call} (hcallee : c.callee = c'.callee)
    (hlocation : c.location = c'.location) : m.traceOf c = m.traceOf c' := by
  rw [traceOf, traceOf, evaluate_congr .trace hcallee hlocation]

/-! ## Captured records -/

/-- The effects of the records along a chain of parents, the outermost first. -/
def Record.effectsAlong (above : List Record) : List Effects := above.reverse.map Record.effects

theorem Record.effectsAlong_cons (r : Record) (above : List Record) :
    effectsAlong (r :: above) = effectsAlong above ++ [r.effects] := by
  simp [effectsAlong]

/-- The record was captured on `m` under the commits of the records `above` it, and left `m'`. -/
structure Captured (m₀ : Model) (t : Table) (r : Record) (above : List Record) (m m' : Model) : Prop where
  chain : t.Chain r.parent above
  under : m₀.Under (Record.effectsAlong above) m
  below : ∀ q ∈ above, q.effects.Below m.nextObject
  simple : ∃ names, r.signature.simpleNames = .ok names
  traced : ∃ (call : Call) (es : List Event), call.callee = r.owner ∧ call.location = r.signature.location ∧
    m.traceOf call = .ok r.effects (es, m')

namespace Captured

theorem mono (h : Captured m₀ t r above m m') (ht : t.insert? r' = some t') : Captured m₀ t' r above m m' :=
  ⟨h.chain.mono fun _ _ => Table.get?_insert? ht, h.under, h.below, h.simple, h.traced⟩

theorem le_next (h : Captured m₀ t r above m m') : m.nextObject ≤ m'.nextObject := by
  obtain ⟨call, es, -, -, htrace⟩ := h.traced
  have hn := (Model.model_evaluate .trace call [] m).2
  rw [Model.traceOf] at htrace
  rw [htrace] at hn
  exact hn

variable (hw : m₀.WellFormed)
include hw

/-- The objects that the record created are those handed out by its capture, and it writes only to them and to
objects handed out before. -/
theorem fresh (h : Captured m₀ t r above m m') : r.effects.Fresh m₀.HandedOut m m' := by
  obtain ⟨call, es, -, -, htrace⟩ := h.traced
  refine Model.fresh_of_traceOf (fun g hg => ?_) call htrace
  rw [h.under.functions] at hg
  exact hw.bodies g hg

theorem writes_below (h : Captured m₀ t r above m m') : r.effects.Below m'.nextObject := by
  intro b hb
  rcases (h.fresh hw).writes b hb with hp | hc
  · have hle := Nat.le_trans h.under.le_next h.le_next
    exact Nat.lt_of_lt_of_le hp hle
  · exact (((h.fresh hw).mem_created _).1 hc).2

end Captured

/-- The evaluator is under the commits of the records `opened`, innermost first, which are a chain of parents, and
every record of the table was captured under the commits of its ancestors, one after the other. -/
structure Discovering (m₀ : Model) (opened : List Record) (t : Table) (m : Model) : Prop where
  under : m₀.Under (Record.effectsAlong opened) m
  chain : t.Chain (opened.head?.map Record.owner) opened
  captured : ∀ r ∈ t.records, ∃ above n n', Captured m₀ t r above n n' ∧ n'.nextObject ≤ m.nextObject
  apart : t.records.Pairwise fun q r => ∀ a ∈ q.effects.created, ∀ b ∈ r.effects.created, a.index < b.index

namespace Discovering

theorem start (m : Model) : Discovering m [] .empty m where
  under := .refl m
  chain := .root
  captured r hr := by cases hr
  apart := .nil

theorem later (h : Discovering m₀ opened t m) (h' : m.Under [] m') : Discovering m₀ opened t m' where
  under := h.under.later h'
  chain := h.chain
  captured r hr := by
    obtain ⟨above, n, n', hc, hn⟩ := h.captured r hr
    exact ⟨above, n, n', hc, Nat.le_trans hn h'.le_next⟩
  apart := h.apart

/-- A record captured now goes to the end of the table. -/
theorem insert (hw : m₀.WellFormed) (h : Discovering m₀ opened t m) (hm : m.Under [] m')
    (hc : Captured m₀ t r opened m m') (ht : t.insert? r = some t') : Discovering m₀ opened t' m' where
  under := h.under.later hm
  chain := h.chain.mono fun _ _ => Table.get?_insert? ht
  captured q hq := by
    rcases (Table.mem_records_insert? ht).1 hq with hq | rfl
    · obtain ⟨above, n, n', hn, hle⟩ := h.captured q hq
      exact ⟨above, n, n', hn.mono ht, Nat.le_trans hle hm.le_next⟩
    · exact ⟨opened, m, m', hc.mono ht, Nat.le_refl _⟩
  apart := by
    rw [Table.records_insert? ht, List.pairwise_append]
    refine ⟨h.apart, List.pairwise_singleton _ _, fun q hq r' hr' a ha b hb => ?_⟩
    rw [List.mem_singleton.1 hr'] at hb
    obtain ⟨above, n, n', hn, hle⟩ := h.captured q hq
    have halt := (((hn.fresh hw).mem_created a).1 ha).2
    have hblt := (((hc.fresh hw).mem_created b).1 hb).1
    omega

theorem below (hw : m₀.WellFormed) (h : Discovering m₀ opened t m) (hr : r ∈ t.records) :
    r.effects.Below m.nextObject := by
  obtain ⟨above, n, n', hc, hn⟩ := h.captured r hr
  exact (hc.writes_below hw).mono hn

/-- The records along a chain write to objects handed out. -/
theorem below_along (hw : m₀.WellFormed) (h : Discovering m₀ opened t m) {x : Option CallableId}
    (hchain : t.Chain x above) : ∀ e ∈ Record.effectsAlong above, e.Below m.nextObject := by
  intro e he
  obtain ⟨q, hq, rfl⟩ := List.mem_map.1 he
  exact h.below hw (hchain.mem_records (List.mem_reverse.1 hq))

/-- The values that open records write are mentioned by the program. -/
theorem mentions (hw : m₀.WellFormed) (h : Discovering m₀ opened t m) :
    ∀ e ∈ Record.effectsAlong opened, e.Mentions m₀.HandedOut := by
  intro e he
  obtain ⟨q, hq, rfl⟩ := List.mem_map.1 he
  obtain ⟨above, n, n', hc, -⟩ := h.captured q (h.chain.mem_records (List.mem_reverse.1 hq))
  exact (hc.fresh hw).values

theorem simple (h : Discovering m₀ opened t m) (hr : r ∈ t.records) : ∃ names, r.signature.simpleNames = .ok names := by
  obtain ⟨above, n, n', hc, -⟩ := h.captured r hr
  exact hc.simple

theorem commit (h : Discovering m₀ opened t m) (hr : t.get? r.owner = some r)
    (hp : r.parent = opened.head?.map Record.owner) :
    Discovering m₀ (r :: opened) t (Evaluator.commit r.effects m).1 where
  under := by
    rw [Record.effectsAlong_cons]
    exact h.under.commit r.effects
  chain := .step hr (hp ▸ h.chain)
  captured := h.captured
  apart := h.apart

theorem rollback (h : m₀.Under (Record.effectsAlong opened) m) (h' : Discovering m₀ (r :: opened) t' m')
    (hp : r.parent = opened.head?.map Record.owner) :
    Discovering m₀ opened t' (Evaluator.rollback m' (Evaluator.commit r.effects m).2) where
  under := by
    have hm := h'.under
    rw [Record.effectsAlong_cons] at hm
    exact h.rollback hm
  chain := by
    obtain _ | ⟨-, hchain⟩ := h'.chain
    exact hp ▸ hchain
  captured := h'.captured
  apart := h'.apart

end Discovering

namespace Analysis

variable {setup : Setup}

/-! ## Processing requests -/

/-- The session is in the middle of discovery with these frames open. -/
structure Amid (m₀ : Model) (opened : List Record) (frames : List Frame) (s : Session Model) : Prop where
  frames : s.traversal.frames = frames
  discovering : Discovering m₀ opened s.table s.evaluator

/-- The innermost committed frame is that of the innermost open record. -/
def Encloses (frames : List Frame) (opened : List Record) : Prop :=
  (frames.find? (·.baseline.isSome)).map Frame.candidate = opened.head?.map Record.owner

theorem Amid.kept (h : Amid m₀ opened frames s) (hk : s.Kept s') : Amid m₀ opened frames s' :=
  ⟨hk.frames.trans h.frames, by
    rw [hk.table]
    exact h.discovering.later hk.evaluator⟩

/-- Nothing but requests and reports was noted. -/
theorem Amid.aside (h : Amid m₀ opened frames s) (ht : s'.table = s.table) (hf : s'.traversal = s.traversal)
    (he : s'.evaluator = s.evaluator) : Amid m₀ opened frames s' :=
  ⟨by rw [hf, h.frames], by rw [ht, he]; exact h.discovering⟩

theorem Amid.enter (h : Amid m₀ opened frames s) (f : CallableId) :
    Amid m₀ opened (⟨f, none, s.traversal.pending⟩ :: frames) (s.enter f) :=
  ⟨by simp [Session.enter, Traversal.enter, h.frames], h.discovering⟩

theorem Amid.leave {top : Frame} (h : Amid m₀ opened (top :: frames) s) : Amid m₀ opened frames s.leave :=
  ⟨by simp [Session.leave, Traversal.leave, h.frames], h.discovering⟩

/-- A record added now was captured under the open commits, and its parent is the innermost open record. -/
theorem Amid.gains (hw : m₀.WellFormed) (hf : Encloses frames opened) (hs : Amid m₀ opened frames s) {c : Candidate}
    (h : s.Gains c r s') : Amid m₀ opened frames s' ∧ s'.table.get? r.owner = some r ∧
      r.parent = opened.head?.map Record.owner := by
  have hp : r.parent = opened.head?.map Record.owner := by
    rw [h.parent, Traversal.parent?, Traversal.committed?, hs.frames]
    exact hf
  have hcap : Captured m₀ s.table r opened s.evaluator s'.evaluator := by
    refine ⟨hp ▸ hs.discovering.chain, hs.discovering.under, fun q hq => ?_, h.simple, ?_⟩
    · exact hs.discovering.below hw (hs.discovering.chain.mem_records hq)
    · rw [Record.owner, h.candidate]
      exact h.traced
  have hmem : r ∈ s'.table.records := (Table.mem_records_insert? h.table).2 (.inr rfl)
  refine ⟨⟨?_, hs.discovering.insert hw h.evaluator hcap h.table⟩, Table.get?_owner hmem, hp⟩
  rw [h.traversal]
  exact hs.frames

theorem Amid.commit {top : Frame} (hs : Amid m₀ opened (top :: frames) s) (hget : s.table.get? r.owner = some r)
    (hp : r.parent = opened.head?.map Record.owner) :
    Amid m₀ (r :: opened) ({ top with baseline := some ⟨s.traversal.commits + 1⟩ } :: frames) (s.commit r.effects) :=
  ⟨by simp [Session.commit, Traversal.commit, hs.frames], hs.discovering.commit hget hp⟩

/-- Whatever ran in between, the rollback is by what the commit left behind. -/
theorem Amid.unwind {top top' : Frame} (hs : Amid m₀ opened (top :: frames) s)
    (h : Amid m₀ (r :: opened) (top' :: frames) s') (hp : r.parent = opened.head?.map Record.owner) :
    Amid m₀ opened frames (s.unwind r.effects s') :=
  ⟨by rw [Session.traversal_unwind h.frames], .rollback hs.discovering.under h.discovering hp⟩

/-- Processing a request keeps the invariant, whatever it reveals and however it ends. -/
theorem process_ends (hw : m₀.WellFormed) (levels : Nat) (request : Request) (hf : Encloses frames opened)
    (hs : Amid m₀ opened frames s) :
    (process setup levels request).Ends s (fun _ => Amid m₀ opened frames) fun _ => Amid m₀ opened frames := by
  induction levels using Nat.strongRecOn generalizing request opened frames s with
  | ind levels ih =>
    have henter : ∀ f, Amid m₀ opened (⟨f, none, s.traversal.pending⟩ :: frames) ((s.accept f request).enter f) :=
      fun f => (hs.aside rfl rfl rfl : Amid m₀ opened frames (s.accept f request)).enter f
    have hfenter : ∀ f, Encloses (⟨f, none, s.traversal.pending⟩ :: frames) opened := fun _ => hf
    refine Ends.process (fun _ _ _ => hs.aside rfl rfl rfl) (fun _ _ _ _ => hs.aside rfl rfl rfl)
      (fun f _ _ _ h => ((henter f).kept h.kept).leave) (fun f _ _ _ _ h => ((henter f).gains hw (hfenter f) h).1.leave) ?_
    rintro f r t rest requests - rfl h
    obtain ⟨ht, hget, hp⟩ := (henter f).gains hw (hfenter f) h
    have htop : f = r.owner := by rw [Record.owner, h.candidate]
    -- The requests that the candidate revealed have one frame less to open.
    have hnested : (requests.forM (process setup rest)).Ends (t.commit r.effects) _ _ := Ends.forM
      (fun request _ u hu => ih rest (Nat.lt_succ_self _) request (by simp [Encloses, htop]) hu) (ht.commit hget hp)
    exact hnested.mono (fun _ _ hu => ht.unwind hu hp) fun _ _ hu => ht.unwind hu hp

/-- With no frame open, the queue is processed request by request, and nothing is left committed. -/
theorem drain_ends (hw : m₀.WellFormed) (setup : Setup) (queue : List Request) (hs : Amid m₀ [] [] s) :
    (drain setup queue).Ends s (fun _ => Amid m₀ [] []) fun _ => Amid m₀ [] [] :=
  Ends.drain (I := fun _ => Amid m₀ [] [])
    (fun request _ _ ht => process_ends hw _ request rfl (ht.aside rfl rfl rfl)) hs

/-- However discovery ends, nothing is left committed, and each record was captured under its ancestors. -/
theorem discover_keeps (hw : m₀.WellFormed) (setup : Setup) (hs : Amid m₀ [] [] s) :
    (discover setup).Ends s (fun _ => Amid m₀ [] []) fun _ => Amid m₀ [] [] :=
  Ends.discover (drain_ends hw setup s.queue hs) fun _ _ ht => ht.aside rfl rfl rfl

theorem discover_ends (hw : m₀.WellFormed) (setup : Setup) (roots : List Request) (reporter : Reporter) :
    (discover setup).Ends (.start m₀ roots reporter) (fun _ => Amid m₀ [] []) fun _ => Amid m₀ [] [] :=
  discover_keeps hw setup ⟨rfl, .start m₀⟩

end Analysis

end Independence
