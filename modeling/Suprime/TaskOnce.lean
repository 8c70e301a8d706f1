import Suprime.TaskClaims

namespace Suprime
set_option autoImplicit true

namespace TaskSwarm

variable {α : Type}

theorem mem_calls [PyNone α] {s : TaskSwarm α} (hs : s.step a = some s')
    (hc : (n, tid) ∈ s'.calls a) : ∃ i clock load storeClock task rest st d b,
      a = .advance n i clock load storeClock ∧ task.id = tid ∧ task.state = .PENDING ∧
      (s.threads n)[i]? = some ⟨task :: rest, none⟩ ∧ task.kind ∈ (s.board n).handlers ∧
      s.claim n task clock load storeClock = some st ∧
      TaskBoard.claims (st.store n) tid = some d ∧ (s.board n).settle d task = (b, true) ∧
      s' = ({ s with stores := st }.setBoard n b).setThread n i ⟨rest, some task⟩ := by
  cases stepped_of_step hs with
  | @advance task rest _ m i clock load storeClock hi hadv =>
    rcases advance_cases hadv with ⟨_, rfl⟩ | ⟨_, _, rfl⟩ |
      ⟨hstate, hkind, st, d, b, runs, hst, hd, hb, rfl⟩
    · rw [calls_setThread (s := s.setBoard m _) hi] at hc
      cases hc
    · rw [calls_setThread hi] at hc
      cases hc
    · have hi' : (({ s with stores := st }.setBoard m b).threads m)[i]? =
          some ⟨task :: rest, none⟩ := hi
      rw [calls_setThread hi'] at hc
      cases runs with
      | false => cases hc
      | true =>
        simp only [if_true, Option.map_some, Option.toList_some, List.mem_singleton,
          Prod.mk.injEq] at hc
        obtain ⟨rfl, rfl⟩ := hc
        exact ⟨i, clock, load, storeClock, task, rest, st, d, b, rfl, rfl, hstate, hi,
          hkind, hst, hd, hb, rfl⟩
  | submit => cases hc
  | registerHandler => cases hc
  | setLoadModel => cases hc
  | put => cases hc
  | evaluate => cases hc
  | finish => cases hc
  | digest => cases hc
  | mergeEntry => cases hc
  | applyDigest => cases hc

theorem executed_of_calls [PyNone α] {s : TaskSwarm α} (hs : s.step a = some s')
    (hc : (n, tid) ∈ s'.calls a) :
    tid ∉ (s.board n).executed ∧ (s'.board n).executed = tid :: (s.board n).executed := by
  obtain ⟨i, _, _, _, task, rest, st, d, b, rfl, rfl, _, _, _, _, _, hb, rfl⟩ := mem_calls hs hc
  obtain ⟨_, _, _, he, hr⟩ := TaskBoard.settle_fields hb
  refine ⟨(hr rfl).1, ?_⟩
  simp only [TaskSwarm.setThread, TaskSwarm.setBoard, Function.update_self]
  exact he

theorem winner_of_calls [PyNone α] {s : TaskSwarm α} (h : s.Sane) (hs : s.step a = some s')
    (hc : (n, tid) ∈ s'.calls a) :
    ∃ d, TaskBoard.claims (s'.stores.store n) tid = some d ∧ TaskBoard.winner d = some n := by
  obtain ⟨i, _, _, _, task, rest, st, d, b, rfl, rfl, _, _, _, _, hd, hb, rfl⟩ := mem_calls hs hc
  have hw := ((TaskBoard.settle_fields hb).2.2.2.2 rfl).2
  rw [h.nodeId] at hw
  exact ⟨d, hd, hw⟩

end TaskSwarm

namespace TaskCluster

variable {α : Type} [PyNone α]

section
omit [PyNone α]

theorem calls_eq {s' : TaskSwarm α} (h : p ∈ s'.calls a) : s'.calls a = [p] := by
  cases a with
  | advance n i clock load storeClock =>
    simp only [TaskSwarm.calls] at h ⊢
    split at h
    · rw [List.mem_singleton.1 h]
    · cases h
  | submit => cases h
  | registerHandler => cases h
  | setLoadModel => cases h
  | put => cases h
  | evaluate => cases h
  | finish => cases h
  | digest => cases h
  | mergeEntry => cases h
  | applyDigest => cases h

end

/-- No node calls the handler of a task twice. -/
structure CalledOnce (c : TaskCluster α) : Prop where
  nodup : c.called.Nodup
  executed : ∀ p ∈ c.called, p.2 ∈ (c.swarm.board p.1).executed

theorem CalledOnce.step {c c' : TaskCluster α} (hc : c.CalledOnce) (h : c.step a = some c') :
    c'.CalledOnce := by
  have hgrows := grows_step h
  rcases step_cases h with ⟨b, s, rfl, _, hs, rfl⟩ |
    ⟨n, tid, kind, args, clock, st, rfl, _, hst, rfl⟩ | ⟨n, rfl, rfl⟩
  · constructor
    · apply hc.nodup.append
      · cases hcalls : s.calls b with
        | nil => exact List.nodup_nil
        | cons p l =>
          have hp : p ∈ s.calls b := hcalls ▸ List.mem_cons_self
          rw [← hcalls, calls_eq hp]
          exact List.nodup_singleton p
      · intro p hp hp'
        exact (TaskSwarm.executed_of_calls hs hp').1 (hc.executed p hp)
    · intro p hp
      rcases List.mem_append.1 hp with hp | hp
      · exact (hgrows p.1).executed _ (hc.executed p hp)
      · rw [(TaskSwarm.executed_of_calls hs hp).2]
        exact List.mem_cons_self
  · exact ⟨hc.nodup, hc.executed⟩
  · exact ⟨hc.nodup, hc.executed⟩

/-- The calls of a handler that a step from `c` to `c'` made. -/
def newCalls (c c' : TaskCluster α) : List (Str × Str) := c'.called.drop c.called.length

theorem mem_newCalls {c c' : TaskCluster α} (h : c.step a = some c') (hp : p ∈ newCalls c c') :
    ∃ b, a = .act b ∧ c.swarm.step b = some c'.swarm ∧ p ∈ c'.swarm.calls b := by
  rcases step_cases h with ⟨b, s, rfl, _, hs, rfl⟩ |
    ⟨n, tid, kind, args, clock, st, rfl, _, hst, rfl⟩ | ⟨n, rfl, rfl⟩
  · rw [newCalls, List.drop_left] at hp
    exact ⟨b, rfl, hs, hp⟩
  · rw [newCalls, List.drop_length] at hp
    cases hp
  · rw [newCalls, List.drop_length] at hp
    cases hp

theorem called_of_run {c : TaskCluster α} (h : Run TaskCluster.step (init grace) past c)
    (hp : p ∈ c.called) :
    ∃ u a u', (u, a) ∈ past ∧ u.step a = some u' ∧ p ∈ newCalls u u' := by
  induction h with
  | start => cases hp
  | @next past u a c hr hs ih =>
    have hcalled : p ∈ u.called ∨ p ∈ newCalls u c := by
      rcases step_cases hs with ⟨b, s, rfl, _, hb, rfl⟩ |
        ⟨n, tid, kind, args, clock, st, rfl, _, hst, rfl⟩ | ⟨n, rfl, rfl⟩
      · rw [newCalls, List.drop_left]
        exact List.mem_append.1 hp
      · exact .inl hp
      · exact .inl hp
    rcases hcalled with hp | hp
    · obtain ⟨v, b, v', hm, hv, hc⟩ := ih hp
      exact ⟨v, b, v', List.mem_cons_of_mem _ hm, hv, hc⟩
    · exact ⟨u, a, c, List.mem_cons_self, hs, hp⟩

/-- Whenever a handler of the task is called, the store of the node holds the claims of all nodes
that claim the task in the run. -/
def ConvergedAtCalls (past : List (TaskCluster α × ClusterAction α)) (c : TaskCluster α)
    (tid : Str) : Prop :=
  ∀ p ∈ past, ∀ c' ∈ p.1.step p.2, ∀ q ∈ newCalls p.1 c', q.2 = tid →
    ∀ w ∈ c.swarm.stores.written, (CLAIM_PREFIX ++ tid ++ ['/']).isPrefixOf w.1 = true →
      (c'.swarm.stores.store q.1).contains w.1 = true

instance (past : List (TaskCluster α × ClusterAction α)) (c : TaskCluster α) (tid : Str) :
    Decidable (ConvergedAtCalls past c tid) :=
  inferInstanceAs (Decidable (∀ p ∈ past, ∀ c' ∈ p.1.step p.2, ∀ q ∈ newCalls p.1 c', q.2 = tid →
    ∀ w ∈ c.swarm.stores.written, (CLAIM_PREFIX ++ tid ++ ['/']).isPrefixOf w.1 = true →
      (c'.swarm.stores.store q.1).contains w.1 = true))

section
omit [PyNone α]

theorem get_of_contains {st : TaskStore α} (h : st.contains k = true) :
    ∃ e, st.data.get k = some e := by
  unfold DistributedStore.contains at h
  cases he : st.data.get k with
  | none =>
    rw [he] at h
    cases h
  | some e => exact ⟨e, rfl⟩

end

def LeastClaim (c : TaskCluster α) (tid n : Str) : Prop :=
  ∃ ts, c.swarm.Claimed tid n ts ∧
    ∀ m ts', c.swarm.Claimed tid m ts' → toLex (ts, n) ≤ toLex (ts', m)

section
omit [PyNone α]

theorem LeastClaim.unique {c : TaskCluster α} (h : c.LeastClaim tid n)
    (h' : c.LeastClaim tid n') : n = n' := by
  obtain ⟨ts, hc, hle⟩ := h
  obtain ⟨ts', hc', hle'⟩ := h'
  have heq := (hle n' ts' hc').antisymm (hle' n ts hc)
  exact (Prod.mk.inj (toLex.injective heq)).2

end

theorem leastClaim_of_called {c : TaskCluster α} (h : Run TaskCluster.step (init grace) past c)
    (hids : ∀ p ∈ past, p.2.Slashless) (hconv : ConvergedAtCalls past c tid)
    (ht : '/' ∉ tid) (hp : (n, tid) ∈ c.called) : c.LeastClaim tid n := by
  obtain ⟨u, a, u', hm, hstep, hcall⟩ := called_of_run h hp
  obtain ⟨pre, post, v, rfl, hpre, hv, hpost⟩ := h.of_mem_past hm
  rw [hstep] at hv
  cases hv
  obtain ⟨b, rfl, hs, hcalls⟩ := mem_newCalls hstep hcall
  have hsane := sane_of_run hpre
    (fun p hp => hids p (List.mem_append_right _ (List.mem_cons_of_mem _ hp)))
  have hsane' := sane_step hsane (hids _ hm) hstep
  have hfinal := sane_of_run h hids
  have hmono := written_run hpost
  obtain ⟨d, hd, hw⟩ := TaskSwarm.winner_of_calls hsane hs hcalls
  obtain ⟨d', hd', hspec⟩ := TaskSwarm.claims_spec hsane' ht n
  rw [hd] at hd'
  cases hd'
  obtain ⟨ts, hget, hle⟩ := TaskBoard.winner_spec.1 hw
  obtain ⟨e, he, hv⟩ := ((hspec n ts).1 hget).claimed hsane'
  refine ⟨ts, ⟨e, hmono _ he, hv⟩, fun m ts' hm' => hle m ts' ?_⟩
  rw [hspec]
  obtain ⟨x, hx, hxv⟩ := hm'
  have hprefix : (CLAIM_PREFIX ++ tid ++ ['/']).isPrefixOf (claimKey tid m) = true :=
    List.isPrefixOf_iff_prefix.2 (List.prefix_append _ _)
  have hcon := hconv _ hm u' hstep _ hcall rfl _ hx hprefix
  obtain ⟨y, hy⟩ := get_of_contains hcon
  have hwritten := hsane'.traced.prov.held n _ y hy
  cases hfinal.log.once _ hx _ (hmono _ hwritten) (prefix_claimKey tid m) rfl
  exact ⟨_, hy, hxv⟩

end TaskCluster

theorem length_le_one {l : List β} (hnd : l.Nodup) (h : ∀ x ∈ l, ∀ y ∈ l, x = y) :
    l.length ≤ 1 := by
  match l with
  | [] => exact Nat.zero_le 1
  | [x] => exact Nat.le_refl 1
  | x :: y :: l =>
    have hxy := h x List.mem_cons_self y (List.mem_cons_of_mem _ List.mem_cons_self)
    rw [hxy] at hnd
    exact absurd List.mem_cons_self (List.nodup_cons.1 hnd).1

/-- If every call of the handler of a task finds the claims of all nodes that ever claim it in the
store of its node, the handler is called at most once in the swarm, by the node with the least
claim. -/
theorem converged_claims_execute_once {α : Type} [PyNone α] {c : TaskCluster α}
    {past : List (TaskCluster α × ClusterAction α)} {grace : ℕ} {tid : Str}
    (h : Run TaskCluster.step (TaskCluster.init grace) past c)
    (hids : ∀ p ∈ past, p.2.Slashless) (ht : '/' ∉ tid)
    (hconv : TaskCluster.ConvergedAtCalls past c tid) :
    (c.called.filter (fun p => p.2 = tid)).length ≤ 1 ∧
      ∀ n, (n, tid) ∈ c.called → c.LeastClaim tid n := by
  have hleast : ∀ n, (n, tid) ∈ c.called → c.LeastClaim tid n :=
    fun n hn => TaskCluster.leastClaim_of_called h hids hconv ht hn
  have honce : c.CalledOnce := by
    apply h.invariant (C := fun _ _ => True) (fun _ _ => trivial)
    · exact ⟨List.nodup_nil, fun p hp => by cases hp⟩
    · exact fun _ _ _ hc _ hs => hc.step hs
  refine ⟨?_, hleast⟩
  have hall : ∀ p ∈ c.called.filter (fun p => p.2 = tid), (p.1, tid) ∈ c.called ∧ p.2 = tid := by
    rintro ⟨n, t⟩ hp
    obtain ⟨hmem, ht⟩ := List.mem_filter.1 hp
    have ht' : t = tid := of_decide_eq_true ht
    subst ht'
    exact ⟨hmem, rfl⟩
  apply length_le_one (honce.nodup.filter _)
  intro p hp q hq
  obtain ⟨hp, hpt⟩ := hall p hp
  obtain ⟨hq, hqt⟩ := hall q hq
  have hn := (hleast _ hp).unique (hleast _ hq)
  exact Prod.ext hn (hpt.trans hqt.symm)

/-- Two nodes claim a task, and node `a` calls the handler when it has both claims. -/
def convergedRun : List (ClusterAction (Option ℕ)) :=
  [.act (.registerHandler ['a'] ['k']), .act (.registerHandler ['b'] ['k']),
    .act (.submit ['a'] ['t'] ['k'] none 1), .act (.digest ['a']), .act (.applyDigest ['b'] 0),
    .act (.evaluate ['a']), .act (.advance ['a'] 0 2 0 2),
    .act (.evaluate ['b']), .act (.advance ['b'] 0 3 0 3), .act (.digest ['b']),
    .act (.applyDigest ['a'] 1), .act (.evaluate ['a']), .act (.advance ['a'] 1 4 0 4),
    .act (.evaluate ['a']), .act (.advance ['a'] 2 5 0 5)]

theorem converged_claims_execute_once_of_two : ∃ past c,
    Run TaskCluster.step (TaskCluster.init 2 : TaskCluster (Option ℕ)) past c ∧
    (∀ p ∈ past, p.2.Slashless) ∧ TaskCluster.ConvergedAtCalls past c ['t'] ∧
    c.called = [(['a'], ['t'])] ∧
    (c.called.filter (fun p => p.2 = ['t'])).length ≤ 1 ∧ c.LeastClaim ['t'] ['a'] := by
  obtain ⟨past, c, hr, hs⟩ := exists_run_of_execPast TaskCluster.step
    (TaskCluster.init 2 : TaskCluster (Option ℕ)) convergedRun
    (fun past c => (decide (∀ p ∈ past, p.2.Slashless),
      decide (TaskCluster.ConvergedAtCalls past c ['t']), c.called))
    (true, true, [(['a'], ['t'])]) (by decide)
  simp only [Prod.mk.injEq, decide_eq_true_eq] at hs
  obtain ⟨hids, hconv, hcalled⟩ := hs
  obtain ⟨honce, hleast⟩ := converged_claims_execute_once hr hids (by decide) hconv
  exact ⟨past, c, hr, hids, hconv, hcalled, honce, hleast _ (hcalled ▸ List.mem_cons_self)⟩

end Suprime
