import Independence.Proofs.Analysis.Counting
import Independence.Proofs.Analysis.Lockstep
import Independence.Proofs.Analysis.Nesting
/-!
# The turns of requests

While a queue is processed every request has its turn. One from the queue has it when those before it are done, and one
that a candidate registered when those registered before it are done, under the commit of the candidate's effects. What is
added in a turn stays, and a failure in a turn is the failure of the whole. Every request that was noted had a turn.
-/

namespace Independence

variable {m : Model} {s t u : Session Model} {f : CallableId} {r : Record} {request : Request} {setup : Setup}
  {levels : Nat} {owner : Option CallableId}

/-- The turn of a request: who registered it, how many more frames may be opened, and the session in which it is
processed. -/
structure Turn where
  request : Request
  owner : Option CallableId
  levels : Nat
  session : Session Model

namespace Turn

/-- What becomes of the request. -/
def run (setup : Setup) (a : Turn) : EStateM.Result Failure (Session Model) PUnit :=
  Analysis.process setup a.levels a.request a.session

/-- The turns that one leads to: itself, and those of what its candidate registers, with all that these lead to. -/
inductive Leads (setup : Setup) : Turn → Turn → Prop
  | here {a : Turn} : Leads setup a a
  | nested {request next : Request} {owner : Option CallableId} {levels : Nat} {s t u : Session Model} {f : CallableId}
    {r : Record} {before after : List Request} {b : Turn} (hf : s.Admits request f)
    (hc : Analysis.captureNew setup ⟨f, request⟩ ((s.accept f request).enter f) = .ok (r, before ++ next :: after) t)
    (hbefore : before.forM (Analysis.process setup levels) (t.commit r.effects) = .ok () u)
    (hnext : Leads setup ⟨next, some f, levels, u⟩ b) : Leads setup ⟨request, owner, levels + 1, s⟩ b

/-- The turns while a queue is processed. -/
inductive Among (setup : Setup) : List Request → Session Model → Turn → Prop
  | now {request : Request} {queue : List Request} {s : Session Model} {b : Turn}
    (h : Leads setup ⟨request, none, setup.maxNesting - s.traversal.depth, { s with queue }⟩ b) :
    Among setup (request :: queue) s b
  | later {request : Request} {queue : List Request} {s t : Session Model} {b : Turn}
    (hp : Analysis.process setup (setup.maxNesting - s.traversal.depth) request { s with queue } = .ok () t)
    (h : Among setup queue t b) : Among setup (request :: queue) s b

end Turn

/-! ## Between two requests -/

/-- It is between two requests, and the innermost candidate in progress is `owner`. -/
structure Session.Ready (m : Model) (owner : Option CallableId) (s : Session Model) : Prop where
  grounded : s.Grounded m
  counted : s.Counted m
  accounted : s.Accounted
  current : s.traversal.current? = owner

namespace Session.Ready

theorem start (m : Model) (roots : List Request) (reporter : Reporter) (placeholders : Placeholders) :
    Ready m none { Session.start m roots reporter with placeholders } where
  grounded := .start m roots reporter placeholders
  counted := .start m roots reporter placeholders
  accounted := (Accounted.start m roots reporter).reframed rfl rfl (List.Subset.refl _)
  current := rfl

theorem queue (h : s.Ready m owner) (queue : List Request) : Ready m owner { s with queue } where
  grounded := h.grounded.queue queue
  counted := h.counted.of_eq rfl rfl rfl
  accounted := h.accounted.reframed rfl rfl (List.Subset.refl _)
  current := h.current

/-- What `f` registered is processed when its effects are committed. -/
theorem commit (h : s.Ready m owner) (hf : s.Admits request f)
    (hg : ((s.accept f request).enter f).Gains ⟨f, request⟩ r t) : Ready m (some f) (t.commit r.effects) where
  grounded := Analysis.grounded_commit h.grounded hf hg
  counted := (h.counted.gains hg).of_eq rfl rfl rfl
  accounted := (h.accounted.captured hg).2
  current := by
    unfold Traversal.current? Traversal.candidates
    rw [hg.traversal_commit]
    rfl

/-- Whoever has a record or is in progress was accepted, and whoever was accepted has a record. -/
theorem mem_owners_iff (h : s.Ready m owner) : f ∈ s.table.owners ↔ Accepted s.visits f := by
  rw [← h.counted.accepted, mem_accepted]

end Session.Ready

namespace Analysis

/-- Processing a request comes back to where it is between two requests. -/
theorem process_ready (setup : Setup) (levels : Nat) (request : Request) (hs : s.Ready m owner) :
    (process setup levels request).Ends s (fun _ => Session.Ready m owner) fun _ _ => True := by
  have hends := (process_returns setup levels request hs.grounded).and
    ((process_counts levels request hs.counted).and (process_accounts setup levels request hs.accounted))
  refine hends.mono ?_ fun _ _ _ => trivial
  rintro _ t ⟨hreturns, hcounted, haccounted, hframes⟩
  refine ⟨hreturns.grounded, hcounted, haccounted, ?_⟩
  rw [Traversal.current?, Traversal.candidates, hframes]
  exact hs.current

theorem forM_process_ready (setup : Setup) (levels : Nat) (requests : List Request) (hs : s.Ready m owner) :
    (requests.forM (process setup levels)).Ends s (fun _ => Session.Ready m owner) fun _ _ => True :=
  Ends.forM (fun request _ _ hu => process_ready setup levels request hu) hs

/-- A list of steps goes on from where the first ones of them ended. -/
theorem forM_of_before {step : Request → Analysis Model PUnit} {before after : List Request} {next : Request}
    (hbefore : before.forM step s = .ok () u) :
    (before ++ next :: after).forM step s = (step next >>= fun _ => after.forM step) u := by
  induction before generalizing s with
  | nil =>
    cases hbefore
    rfl
  | cons first before ih =>
    obtain ⟨_, v, hv, hbefore⟩ := of_bind_ok (show (step first >>= fun _ => before.forM step) s = _ from hbefore)
    change (step first >>= fun _ => (before ++ next :: after).forM step) s = _
    simp only [Bind.bind, EStateM.bind, hv]
    exact ih hbefore

/-- What every step of a list keeps from where those before it ended, the list keeps. -/
theorem Ends.forM_after {step : Request → Analysis Model PUnit} {requests : List Request} {I : Session Model → Prop}
    {E : Failure → Session Model → Prop}
    (h : ∀ before next after u, requests = before ++ next :: after → before.forM step s = .ok () u → I u →
      (step next).Ends u (fun _ => I) E) (hs : I s) : (requests.forM step).Ends s (fun _ => I) E := by
  suffices hrest : ∀ rest before u, requests = before ++ rest → before.forM step s = .ok () u → I u →
      (rest.forM step).Ends u (fun _ => I) E from hrest requests [] s rfl rfl hs
  intro rest
  induction rest with
  | nil => exact fun _ _ _ _ hu => hu
  | cons next rest ih =>
    intro before u hsplit hbefore hu
    have hnext := h before next rest u hsplit hbefore hu
    change (step next >>= fun _ => rest.forM step).Ends u _ _
    simp only [Ends, Bind.bind, EStateM.bind] at hnext ⊢
    cases hx : step next u with
    | error x t =>
      rw [hx] at hnext
      exact hnext
    | ok _ t =>
      rw [hx] at hnext
      refine ih (before ++ [next]) t (by simp [hsplit]) ?_ hnext
      rw [forM_of_before hbefore]
      simp only [Bind.bind, EStateM.bind, hx]
      rfl

/-- The accepted request is noted first, and the rest only adds. -/
theorem process_admits (setup : Setup) (levels : Nat) (hf : s.Admits request f) :
    (process setup levels request).Ends s (fun _ => (s.accept f request).Extends)
      fun _ => (s.accept f request).Extends := by
  have hsame : ∀ {g : CallableId}, s.Admits request g → g = f := fun hg =>
    Option.some.inj (hg.candidate.symm.trans hf.candidate)
  -- A request for a new callable is not put aside.
  have hfresh : ∀ {noted : List Visit}, s.Noted request noted → ¬ ∀ v ∈ noted, v.outcome ≠ .accepted := by
    intro noted hn haside
    rcases accepted_append.1 (hn.accepted f hf.candidate) with ⟨v, hv, -, hacc⟩ | hacc
    · exact haside v hv hacc
    · exact hf.unseen hacc
  refine Ends.process (fun noted _ h => absurd h.again (hfresh h.toNoted)) ?refused ?failed ?single ?nested
  case refused =>
    rintro x noted reporter ⟨hn, -, ⟨-, haside⟩ | ⟨-, g, hg, rfl⟩⟩
    · exact absurd haside (hfresh hn)
    · obtain rfl := hsame hg
      exact ⟨List.suffix_rfl, List.prefix_rfl⟩
  case failed =>
    intro g x t hg h
    obtain rfl := hsame hg
    exact ⟨h.adds.visits, h.adds.records⟩
  case single =>
    intro g r t hg _ h
    obtain rfl := hsame hg
    exact ⟨h.adds.visits, h.adds.records⟩
  case nested =>
    rintro g r t rest requests hg rfl h
    obtain rfl := hsame hg
    have hcommit : (s.accept g request).Extends (t.commit r.effects) := ⟨h.adds.visits, h.adds.records⟩
    have hnested := Follows.forM (T := Session.Extends) (process_follows setup rest) requests (t.commit r.effects)
    exact hnested.mono (fun _ u hu => ⟨hcommit.visits.trans hu.visits, hcommit.records.trans hu.records⟩)
      fun _ u hu => ⟨hcommit.visits.trans hu.visits, hcommit.records.trans hu.records⟩

end Analysis

/-! ## Parts of a whole -/

/-- What ended in `y` was part of what ended in `x`: what it added stayed, and if it failed the whole failed with that, and
nothing was reported any more. -/
structure Passes (y x : EStateM.Result Failure (Session Model) PUnit) : Prop where
  onward : (finalState y).Extends (finalState x)
  failed : ∀ e t, y = .error e t → ∃ u, x = .error e u ∧ u.reporter = t.reporter

namespace Passes

variable {x y z : EStateM.Result Failure (Session Model) PUnit}

theorem refl (x : EStateM.Result Failure (Session Model) PUnit) : Passes x x :=
  ⟨refl_of Session.Extends _, fun _ t h => ⟨t, h, rfl⟩⟩

theorem trans (h : Passes z y) (h' : Passes y x) : Passes z x := by
  refine ⟨trans_of Session.Extends h.onward h'.onward, fun e t ht => ?_⟩
  obtain ⟨u, hu, hur⟩ := h.failed e t ht
  obtain ⟨v, hv, hvr⟩ := h'.failed e u hu
  exact ⟨v, hv, hvr.trans hur⟩

/-- The first part of a sequence. -/
theorem bind (x : Analysis Model PUnit) {k : PUnit → Analysis Model PUnit}
    (hk : ∀ a, Analysis.Follows Session.Extends (k a)) (s : Session Model) : Passes (x s) ((x >>= k) s) := by
  refine ⟨Analysis.Follows.final_bind hk s, fun e t ht => ⟨t, ?_, rfl⟩⟩
  simp only [Bind.bind, EStateM.bind, ht]

/-- What comes after some of the steps of a list. -/
theorem forM {step : Request → Analysis Model PUnit} (hstep : ∀ a, Analysis.Follows Session.Extends (step a))
    {before : List Request} (hbefore : before.forM step s = .ok () u) (next : Request) (after : List Request) :
    Passes (step next u) ((before ++ next :: after).forM step s) := by
  rw [Analysis.forM_of_before hbefore]
  exact bind (step next) (fun _ => Analysis.Follows.forM hstep after) u

end Passes

namespace Turn

variable {a b : Turn} {queue : List Request}

/-- What comes from a turn that one leads to comes from that one. -/
theorem Leads.passes (h : Leads setup a b) : Passes (b.run setup) (a.run setup) := by
  induction h with
  | here => exact .refl _
  | @nested request next owner levels s t u f r before after b hf hc hbefore _ ih =>
    refine ih.trans ((Passes.forM (Analysis.process_follows setup levels) hbefore next after).trans ?_)
    have hrun : run setup ⟨request, owner, levels + 1, s⟩ = _ :=
      Analysis.process_of_captured hf hc (List.append_ne_nil_of_right_ne_nil before (List.cons_ne_nil next after))
    rw [hrun]
    cases (before ++ next :: after).forM (Analysis.process setup levels) (t.commit r.effects) with
    | ok _ v =>
      refine ⟨⟨List.suffix_rfl, List.prefix_rfl⟩, fun e w hw => ?_⟩
      cases hw
    | error x v =>
      refine ⟨⟨List.suffix_rfl, List.prefix_rfl⟩, fun e w hw => ?_⟩
      cases hw
      exact ⟨_, rfl, rfl⟩

theorem Among.passes (h : Among setup queue s b) : Passes (b.run setup) (Analysis.drain setup queue s) := by
  induction h with
  | @now request queue s b h =>
    exact h.passes.trans (Passes.bind (Analysis.process setup _ request) (fun _ => Analysis.drain_follows setup queue) _)
  | @later request queue s t b hp _ ih =>
    rw [Analysis.drain_cons, hp]
    exact ih

/-- Every turn leads on to the end of discovery. -/
theorem Among.passes_discover (h : Among setup s.queue s b) : Passes (b.run setup) (Analysis.discover setup s) := by
  refine h.passes.trans (Passes.bind (Analysis.drain setup s.queue) (fun _ t => ?_) s)
  refine Analysis.Ends.get ?_
  simp only
  split
  · exact Analysis.Ends.pure (refl_of Session.Extends t)
  · exact Analysis.Ends.fail fun _ => ⟨List.suffix_rfl, List.prefix_rfl⟩

/-! ## Every request has a turn -/

/-- The request of the turn was noted as `v`. -/
structure Notes (a : Turn) (v : Visit) : Prop where
  candidate : Evaluator.candidate? a.session.evaluator a.request.target = some v.callable
  location : v.location = a.request.location
  enclosing : v.enclosing = a.session.traversal.candidates
  outcome : v.outcome = .accepted ↔ ¬ Accepted a.session.visits v.callable

/-- What was noted in `t` was noted in `s` already or has a turn that `a` leads to. -/
def Covers (setup : Setup) (a : Turn) (s t : Session Model) : Prop :=
  ∀ v ∈ t.visits, v ∈ s.visits ∨ ∃ b, Leads setup a b ∧ b.Notes v

/-- A request for a callable that was accepted is noted with another outcome. -/
theorem again_covers (setup : Setup) (a : Turn) {first : Visit}
    (hf : Evaluator.candidate? a.session.evaluator a.request.target = some f)
    (hfirst : a.session.accepted? f = some first) :
    a.Covers setup a.session (finalState (Analysis.again setup f first a.request a.session)) := by
  have hone : ∀ outcome, outcome ≠ .accepted → a.Notes ⟨f, a.request.location, a.session.traversal.candidates, outcome⟩ :=
    fun outcome hne =>
      ⟨hf, rfl, rfl, fun h => absurd h hne, fun h => absurd (Session.accepted?_some hfirst) h⟩
  have hcons : ∀ (t : Session Model) (v : Visit), a.Notes v → t.visits = v :: a.session.visits →
      a.Covers setup a.session t := by
    intro t v hv ht w hw
    rw [ht] at hw
    rcases List.mem_cons.1 hw with rfl | hw
    · exact .inr ⟨a, .here, hv⟩
    · exact .inl hw
  by_cases hrepeated : first.repeatedBy a.session.table a.request.location a.session.traversal.current? = true
  · rw [Analysis.again_of_repeated setup hrepeated]
    exact hcons _ _ (hone .repeated nofun) rfl
  · rw [Analysis.again_of_not_repeated setup hrepeated]
    split <;> exact hcons _ _ (hone (.duplicate _) nofun) rfl

/-- What a candidate registered has its turns under the commit, one after the other. -/
theorem nested_covers {requests : List Request}
    (hcovers : ∀ next u, Covers setup ⟨next, some f, levels, u⟩ u (finalState (run setup ⟨next, some f, levels, u⟩)))
    (hf : s.Admits request f)
    (hc : Analysis.captureNew setup ⟨f, request⟩ ((s.accept f request).enter f) = .ok (r, requests) t)
    (hstart : Covers setup ⟨request, owner, levels + 1, s⟩ s (t.commit r.effects)) :
    (requests.forM (Analysis.process setup levels)).Ends (t.commit r.effects)
      (fun _ => Covers setup ⟨request, owner, levels + 1, s⟩ s) fun _ => Covers setup ⟨request, owner, levels + 1, s⟩ s := by
  refine Analysis.Ends.forM_after (fun before next after u hsplit hbefore hu => ?_) hstart
  have hlater : Covers setup ⟨request, owner, levels + 1, s⟩ s (finalState (run setup ⟨next, some f, levels, u⟩)) := by
    intro v hv
    rcases hcovers next u v hv with hv | ⟨b, hb, hnotes⟩
    · exact hu v hv
    · exact .inr ⟨b, .nested hf (hsplit ▸ hc) hbefore hb, hnotes⟩
  simp only [run] at hlater
  unfold Analysis.Ends
  cases hx : Analysis.process setup levels next u <;> rw [hx] at hlater <;> exact hlater

/-- What is noted while a request is processed has a turn that comes from its turn. -/
theorem run_covers (setup : Setup) (a : Turn) : a.Covers setup a.session (finalState (a.run setup)) := by
  obtain ⟨request, owner, levels, s⟩ := a
  induction levels using Nat.strongRecOn generalizing request owner s with
  | ind levels ih =>
    cases hcandidate : Evaluator.candidate? s.evaluator request.target with
    | none =>
      simp only [run, Analysis.process, Bind.bind, EStateM.bind, get_apply, hcandidate]
      exact fun _ hv => .inl hv
    | some f =>
      cases hfirst : s.accepted? f with
      | some first =>
        rw [run, Analysis.process_of_accepted setup levels hcandidate hfirst]
        exact again_covers setup ⟨request, owner, levels, s⟩ hcandidate hfirst
      | none =>
        have hf : s.Admits request f := ⟨hcandidate, Session.accepted?_eq_none_iff.1 hfirst⟩
        have haccepted : ∀ t : Session Model, t.visits = (s.accept f request).visits →
            Covers setup ⟨request, owner, levels, s⟩ s t := by
          intro t ht v hv
          rw [ht] at hv
          rcases List.mem_cons.1 hv with rfl | hv
          · exact .inr ⟨_, .here, hcandidate, rfl, rfl, fun _ => hf.unseen, fun _ => rfl⟩
          · exact .inl hv
        cases levels with
        | zero =>
          simp only [run, Analysis.process, Bind.bind, EStateM.bind, get_apply, hcandidate, hfirst]
          exact haccepted _ rfl
        | succ levels =>
          rw [run, Analysis.process_of_admits setup levels hf]
          have hends := Analysis.captureNew_ends setup ⟨f, request⟩ ((s.accept f request).enter f)
          cases hc : Analysis.captureNew setup ⟨f, request⟩ ((s.accept f request).enter f) with
          | error x t =>
            rw [Analysis.Ends, hc] at hends
            exact haccepted _ hends.kept.visits
          | ok result t =>
            rw [Analysis.Ends, hc] at hends
            obtain ⟨r, requests⟩ := result
            have ht : t.visits = (s.accept f request).visits := hends.1.visits
            have hnested := nested_covers (fun next u => ih levels (Nat.lt_succ_self _) next (some f) u) hf hc
              (haccepted (t.commit r.effects) ht)
            simp only
            split
            · exact haccepted _ ht
            · have hall := hnested.final
              cases hx : requests.forM (Analysis.process setup levels) (t.commit r.effects) <;> rw [hx] at hall <;>
                exact hall

/-- Among the turns of a queue there is one for everything that is noted while the queue is processed. -/
theorem exists_among (setup : Setup) (queue : List Request) (s : Session Model) :
    ∀ v ∈ (finalState (Analysis.drain setup queue s)).visits, v ∈ s.visits ∨ ∃ b, Among setup queue s b ∧ b.Notes v := by
  induction queue generalizing s with
  | nil => exact fun _ hv => .inl hv
  | cons request queue ih =>
    have hcovers := run_covers setup ⟨request, none, setup.maxNesting - s.traversal.depth, { s with queue }⟩
    rw [Analysis.drain_cons]
    simp only [run] at hcovers
    have hnow : ∀ t, Covers setup ⟨request, none, setup.maxNesting - s.traversal.depth, { s with queue }⟩
        { s with queue } t → ∀ v ∈ t.visits, v ∈ s.visits ∨ ∃ b, Among setup (request :: queue) s b ∧ b.Notes v :=
      fun t ht v hv => (ht v hv).imp_right fun ⟨b, hb, hnotes⟩ => ⟨b, .now hb, hnotes⟩
    cases hx : Analysis.process setup (setup.maxNesting - s.traversal.depth) request { s with queue } with
    | error x t =>
      rw [hx] at hcovers
      exact hnow t hcovers
    | ok _ t =>
      rw [hx] at hcovers
      intro v hv
      rcases ih t v hv with hv | ⟨b, hb, hnotes⟩
      · exact hnow t hcovers v hv
      · exact .inr ⟨b, .later hx hb, hnotes⟩

/-! ## What holds in a turn -/

theorem Leads.ready (h : Leads setup a b) (ha : a.session.Ready m a.owner) : b.session.Ready m b.owner := by
  induction h with
  | here => exact ha
  | @nested request next owner levels s t u f r before after b hf hc hbefore _ ih =>
    have hgains := ((Analysis.captureNew_ends setup ⟨f, request⟩ _).of_ok hc).1
    exact ih ((Analysis.forM_process_ready setup levels before (ha.commit hf hgains)).of_ok hbefore)

theorem Among.ready (h : Among setup queue s b) (hs : s.Ready m none) : b.session.Ready m b.owner := by
  induction h with
  | now h => exact h.ready (hs.queue _)
  | later hp _ ih => exact ih ((Analysis.process_ready setup _ _ (hs.queue _)).of_ok hp)

end Turn

end Independence
