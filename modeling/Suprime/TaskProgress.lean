import Suprime.TaskClaims

namespace Suprime
set_option autoImplicit true

namespace TaskSwarm

variable {α : Type}

/-- Node `n` has a task in hand: a loop of it has still to visit it or executes its handler. -/
def InHand (s : TaskSwarm α) (n : Str) (t : Task α) : Prop :=
  ∃ th ∈ s.threads n, t ∈ th.rest ∨ t ∈ th.executing

def Executing (s : TaskSwarm α) (n : Str) (t : Task α) : Prop :=
  ∃ th ∈ s.threads n, t ∈ th.executing

/-- The writes that a step can make, with their reasons. Only `tid` may not be submitted again. -/
inductive Writes (s s' : TaskSwarm α) (node tid : Str) : Str → Stored α → Prop
  | plain : ¬ TASK_PREFIX <+: key → ¬ CLAIM_PREFIX <+: key → Writes s s' node tid key value
  | submit : (t.id = tid → t.id ∉ s.submitted) → t.id ∈ s'.submitted → t.state = .PENDING →
      Writes s s' node tid (TASK_PREFIX ++ t.id) (.task t)
  | finish : s.Executing node t →
      Writes s s' node tid (TASK_PREFIX ++ t.id) (.task (t.ended node outcome))
  | claim : s.InHand node t → t.kind ∈ (s.board node).handlers →
      Writes s s' node tid (claimKey t.id node) (.claim node ts)

/-- What a step does to the log of writes, to the tasks in hand and to the executed ones. -/
structure Effect (s s' : TaskSwarm α) (node tid : Str) (called : List (Str × Str)) : Prop where
  written : s'.stores.written = s.stores.written ∨ ∃ key e,
    s'.stores.written = s.stores.written ++ [(key, e)] ∧ s.Writes s' node tid key e.value
  inHand : ∀ n t, s'.InHand n t → s.InHand n t ∨ ∃ k e,
    (s.stores.store n).data.get k = some e ∧ TASK_PREFIX <+: k ∧ e.value = .task t
  executing : ∀ n t, s'.Executing n t → s.Executing n t ∨ t.id ∈ (s'.board n).executed
  executed : ∀ n u, u ∈ (s'.board n).executed → u ∈ (s.board n).executed ∨ (n, u) ∈ called
  submitted : ∀ u ∈ s.submitted, u ∈ s'.submitted

theorem Effect.of_threads {s s' : TaskSwarm α} (hth : s'.threads = s.threads)
    (hb : ∀ n, (s'.board n).executed = (s.board n).executed)
    (hsub : ∀ u ∈ s.submitted, u ∈ s'.submitted)
    (hw : s'.stores.written = s.stores.written ∨ ∃ key e,
      s'.stores.written = s.stores.written ++ [(key, e)] ∧ s.Writes s' node tid key e.value) :
    Effect s s' node tid called where
  written := hw
  inHand n t h := by
    rw [InHand, hth] at h
    exact .inl h
  executing n t h := by
    rw [Executing, hth] at h
    exact .inl h
  executed n u h := by
    rw [hb] at h
    exact .inl h
  submitted := hsub

theorem executed_setBoard {s : TaskSwarm α} {b : TaskBoard}
    (h : b.executed = (s.board n).executed) (m : Str) :
    ((s.setBoard n b).board m).executed = (s.board m).executed := by
  by_cases hm : m = n
  · subst hm
    simpa only [TaskSwarm.setBoard, Function.update_self] using h
  · simp only [TaskSwarm.setBoard, Function.update_of_ne hm]

theorem InHand.of_setThread {s s₁ : TaskSwarm α} (hth : s₁.threads = s.threads)
    (hi : (s.threads n)[i]? = some th)
    (hsub : ∀ t, t ∈ u.rest ∨ t ∈ u.executing → t ∈ th.rest ∨ t ∈ th.executing)
    (h : (s₁.setThread n i u).InHand m t) : s.InHand m t := by
  obtain ⟨x, hx, ht⟩ := h
  rcases mem_setThread hx with hx | ⟨rfl, rfl⟩
  · exact ⟨x, hth ▸ hx, ht⟩
  · exact ⟨th, List.mem_of_getElem? hi, hsub t ht⟩

theorem Executing.of_setThread {s s₁ : TaskSwarm α} (hth : s₁.threads = s.threads)
    (h : (s₁.setThread n i u).Executing m t) : s.Executing m t ∨ m = n ∧ t ∈ u.executing := by
  obtain ⟨x, hx, ht⟩ := h
  rcases mem_setThread hx with hx | ⟨rfl, rfl⟩
  · exact .inl ⟨x, hth ▸ hx, ht⟩
  · exact .inr ⟨rfl, ht⟩

theorem mem_startThread {s : TaskSwarm α}
    (h : x ∈ Function.update s.threads n (s.threads n ++ [th]) m) :
    x ∈ s.threads m ∨ m = n ∧ x = th := by
  by_cases hm : m = n
  · subst hm
    rw [Function.update_self] at h
    exact (List.mem_append.1 h).imp_right (fun h => ⟨rfl, List.mem_singleton.1 h⟩)
  · rw [Function.update_of_ne hm] at h
    exact .inl h

theorem effect_advance {s : TaskSwarm α} (h : s.Sane)
    (hi : (s.threads n)[i]? = some ⟨task :: rest, none⟩)
    (hs : s.advance n i task rest clock load storeClock = some s') :
    Effect s s' n tid (s'.calls (.advance n i clock load storeClock)) := by
  have hhand : s.InHand n task := ⟨_, List.mem_of_getElem? hi, .inl List.mem_cons_self⟩
  rcases advance_cases hs with ⟨_, rfl⟩ | ⟨_, _, rfl⟩ |
    ⟨_, hkind, st, d, b, runs, hst, _, hb, rfl⟩
  · refine ⟨.inl rfl, fun _ _ ht => .inl (ht.of_setThread rfl hi (inHand_advanced false)), ?_, ?_,
      fun _ ht => ht⟩
    · intro m t ht
      rcases ht.of_setThread rfl with ht | ⟨_, ht⟩
      · exact .inl ht
      · cases ht
    · intro m tid ht
      have he := executed_setBoard (s := s) (n := n) (b := (s.board n).forget task.id) rfl m
      exact .inl (he ▸ ht)
  · refine ⟨.inl rfl, fun _ _ ht => .inl (ht.of_setThread rfl hi (inHand_advanced false)), ?_,
      fun _ _ ht => .inl ht, fun _ ht => ht⟩
    intro m t ht
    rcases ht.of_setThread rfl with ht | ⟨_, ht⟩
    · exact .inl ht
    · cases ht
  · obtain ⟨_, _, _, he, _⟩ := TaskBoard.settle_fields hb
    have hi' : (({ s with stores := st }.setBoard n b).threads n)[i]? =
        some ⟨task :: rest, none⟩ := hi
    refine ⟨?_, fun _ _ ht => .inl (ht.of_setThread rfl hi (inHand_advanced runs)), ?_, ?_,
      fun _ ht => ht⟩
    · rcases claim_spec h hst with ⟨rfl, _⟩ | ⟨_, ts, hset⟩
      · exact .inl rfl
      · exact .inr ⟨_, _, StoreSwarm.written_set hset, .claim hhand hkind⟩
    · intro m t hexec
      rcases hexec.of_setThread rfl with hold | ⟨rfl, hnew⟩
      · exact .inl hold
      · simp only [TaskSwarm.setThread, TaskSwarm.setBoard, Function.update_self]
        rw [he]
        cases runs with
        | false => cases hnew
        | true =>
          cases hnew
          exact .inr List.mem_cons_self
    · intro m tid ht
      rw [calls_setThread hi']
      simp only [TaskSwarm.setThread, TaskSwarm.setBoard] at ht
      by_cases hm : m = n
      · subst hm
        rw [Function.update_self, he] at ht
        cases runs with
        | false => exact .inl ht
        | true =>
          rcases List.mem_cons.1 ht with rfl | ht
          · exact .inr List.mem_cons_self
          · exact .inl ht
      · rw [Function.update_of_ne hm] at ht
        exact .inl ht

theorem effect_step [PyNone α] {s : TaskSwarm α} (h : s.Sane) (hs : s.step a = some s') :
    Effect s s' a.node tid (s'.calls a) := by
  cases stepped_of_step hs with
  | submit n tid kind args clock hnew hst =>
    refine .of_threads rfl (fun _ => rfl) (fun _ ht => List.mem_append_left _ ht)
      (.inr ⟨_, _, StoreSwarm.written_set hst, ?_⟩)
    exact .submit (t := TaskBoard.newTask n tid kind args) (fun _ => hnew)
      (List.mem_append_right _ List.mem_cons_self) rfl
  | registerHandler =>
    exact .of_threads rfl (executed_setBoard rfl) (fun _ ht => ht) (.inl rfl)
  | setLoadModel => exact .of_threads rfl (executed_setBoard rfl) (fun _ ht => ht) (.inl rfl)
  | put n key value clock htask hclaim hst =>
    exact .of_threads rfl (fun _ => rfl) (fun _ ht => ht)
      (.inr ⟨_, _, StoreSwarm.written_set hst, .plain htask hclaim⟩)
  | evaluate n ht =>
    refine ⟨.inl rfl, ?_, ?_, fun _ _ ht => .inl ht, fun _ ht => ht⟩
    · rintro m t ⟨th, hth, htask⟩
      rcases mem_startThread hth with hth | ⟨rfl, rfl⟩
      · exact .inl ⟨th, hth, htask⟩
      · rcases htask with htask | htask
        · exact .inr (mem_tasks ht htask)
        · cases htask
    · rintro m t ⟨th, hth, htask⟩
      rcases mem_startThread hth with hth | ⟨rfl, rfl⟩
      · exact .inl ⟨th, hth, htask⟩
      · cases htask
  | advance _ _ _ _ _ hi hadv => exact effect_advance h hi hadv
  | @finish th task st n i outcome clock hi ht hst =>
    refine ⟨.inr ⟨_, _, StoreSwarm.written_set hst, .finish ⟨th, List.mem_of_getElem? hi, ht⟩⟩,
      ?_, ?_, fun _ _ ht => .inl ht, fun _ ht => ht⟩
    · intro m t hhand
      exact .inl (InHand.of_setThread (u := ⟨th.rest, none⟩) rfl hi
        (fun t ht' => ht'.imp_right (fun ht' => by cases ht')) hhand)
    · intro m t hexec
      rcases hexec.of_setThread rfl with hexec | ⟨_, hexec⟩
      · exact .inl hexec
      · cases hexec
  | digest _ _ hw => exact .of_threads rfl (fun _ => rfl) (fun _ ht => ht) (.inl hw)
  | mergeEntry _ _ _ _ hw => exact .of_threads rfl (fun _ => rfl) (fun _ ht => ht) (.inl hw)
  | applyDigest _ _ _ hw => exact .of_threads rfl (fun _ => rfl) (fun _ ht => ht) (.inl hw)

/-- A record of a task that some node wrote. -/
def Recorded (s : TaskSwarm α) (t : Task α) : Prop :=
  ∃ e, (TASK_PREFIX ++ t.id, e) ∈ s.stores.written ∧ e.value = .task t

/-- What every run keeps of a task while no node has crashed after it called its handler, and while
each node that has crashed left a node with a lesser claim behind. -/
structure Tended (s : TaskSwarm α) (tid : Str) : Prop where
  sane : s.Sane
  inHand : ∀ n t, s.InHand n t → s.Recorded t ∧
    ∃ e, (s.stores.store n).data.get (TASK_PREFIX ++ t.id) = some e
  executing : ∀ n t, s.Executing n t → t.id ∈ (s.board n).executed
  submitted : ∀ t, s.Recorded t → t.id ∈ s.submitted
  pending : (∀ n, tid ∉ (s.board n).executed) → ∀ t t', s.Recorded t → s.Recorded t' →
    t.id = tid → t'.id = tid → t = t' ∧ t.state = .PENDING
  claimant : ∀ n ts, s.Claimed tid n ts →
    (∃ e, (s.stores.store n).data.get (TASK_PREFIX ++ tid) = some e) ∧
    ∃ t, s.Recorded t ∧ t.id = tid ∧ t.kind ∈ (s.board n).handlers

theorem Sane.recorded {s : TaskSwarm α} (h : s.Sane)
    (he : (s.stores.store n).data.get k = some e) (hp : TASK_PREFIX <+: k)
    (hv : e.value = .task t) : s.Recorded t ∧ k = TASK_PREFIX ++ t.id := by
  have hw := h.traced.prov.held n k e he
  obtain ⟨_, t', hv', rfl, _⟩ := h.log.record _ hw hp
  rw [hv] at hv'
  cases hv'
  exact ⟨⟨e, hw, hv⟩, rfl⟩

theorem held_step {st st' : StoreSwarm ℚ Str Str (Stored α)}
    (hs : st' = st ∨ ∃ b, st.step b = some st')
    (h : ∃ e, (st.store n).data.get k = some e) : ∃ e, (st'.store n).data.get k = some e := by
  obtain ⟨e, he⟩ := h
  rcases hs with rfl | ⟨b, hb⟩
  · exact ⟨e, he⟩
  · obtain ⟨e', he', _⟩ := StoreSwarm.get_step hb he
    exact ⟨e', he'⟩

theorem Effect.recorded_mono {s s' : TaskSwarm α} (h : Effect s s' node tid called)
    (hr : s.Recorded t) :
    s'.Recorded t := by
  obtain ⟨e, he, hv⟩ := hr
  rcases h.written with hw | ⟨key, x, hw, _⟩
  · exact ⟨e, hw ▸ he, hv⟩
  · exact ⟨e, hw ▸ List.mem_append_left _ he, hv⟩

theorem Effect.mem_written {s s' : TaskSwarm α} (h : Effect s s' node tid called)
    (he : (k, e) ∈ s'.stores.written) :
    (k, e) ∈ s.stores.written ∨
      s'.stores.written = s.stores.written ++ [(k, e)] ∧ s.Writes s' node tid k e.value := by
  rcases h.written with hw | ⟨key, x, hw, hx⟩
  · exact .inl (hw ▸ he)
  · rw [hw] at he
    rcases List.mem_append.1 he with he | he
    · exact .inl he
    · obtain ⟨rfl, rfl⟩ := Prod.mk.inj (List.mem_singleton.1 he)
      exact .inr ⟨hw, hx⟩

/-- The records after a step: the ones before, a task that was just submitted or the record that
the end of a handler wrote. -/
theorem Effect.recorded {s s' : TaskSwarm α} (h : Effect s s' node tid called)
    (hr : s'.Recorded t) :
    s.Recorded t ∨
    ((t.id = tid → t.id ∉ s.submitted) ∧ t.id ∈ s'.submitted ∧ t.state = .PENDING ∧
      ∀ t', s'.Recorded t' → s.Recorded t' ∨ t' = t) ∨
    ∃ u o, s.Executing node u ∧ t = u.ended node o := by
  obtain ⟨e, he, hv⟩ := hr
  rcases h.mem_written he with he | ⟨hw, hx⟩
  · exact .inl ⟨e, he, hv⟩
  · have hlast : ∀ t', s'.Recorded t' → s.Recorded t' ∨ t' = t := by
      rintro t' ⟨e', he', hv'⟩
      rw [hw] at he'
      rcases List.mem_append.1 he' with he' | he'
      · exact .inl ⟨e', he', hv'⟩
      · obtain ⟨_, rfl⟩ := Prod.mk.inj (List.mem_singleton.1 he')
        rw [hv] at hv'
        cases hv'
        exact .inr rfl
    rw [hv] at hx
    generalize hk : TASK_PREFIX ++ t.id = k at hx
    generalize hval : Stored.task t = v at hx
    cases hx with
    | plain ht _ => exact absurd ⟨t.id, hk⟩ ht
    | submit hn hs hst =>
      cases hval
      exact .inr (.inl ⟨hn, hs, hst, hlast⟩)
    | @finish u o hex =>
      cases hval
      exact .inr (.inr ⟨u, o, hex, rfl⟩)
    | claim => cases hval

theorem Effect.claimed {s s' : TaskSwarm α} (h : Effect s s' node tid called)
    (hc : s'.Claimed tid n ts) : s.Claimed tid n ts ∨
      n = node ∧ ∃ t, t.id = tid ∧ s.InHand n t ∧ t.kind ∈ (s.board n).handlers := by
  obtain ⟨e, he, hv⟩ := hc
  rcases h.mem_written he with he | ⟨-, hx⟩
  · exact .inl ⟨e, he, hv⟩
  · rw [hv] at hx
    generalize hk : claimKey tid n = k at hx
    generalize hval : Stored.claim n ts = v at hx
    cases hx with
    | plain _ hcl => exact absurd (hk ▸ prefix_claimKey tid n) hcl
    | submit => cases hval
    | finish => cases hval
    | @claim t ts' hhand hkind =>
      cases hval
      rw [claimKey_eq, claimKey_eq] at hk
      have hid := List.append_cancel_right (List.append_cancel_left hk)
      exact .inr ⟨rfl, t, hid.symm, hhand, hkind⟩

theorem Tended.step {s s' : TaskSwarm α} (h : s.Tended tid) (hf : Effect s s' node tid called)
    (hsane : s'.Sane) (hst : s'.stores = s.stores ∨ ∃ b, s.stores.step b = some s'.stores)
    (hg : ∀ n, (s.board n).Grows (s'.board n)) : s'.Tended tid where
  sane := hsane
  inHand n t ht := by
    rcases hf.inHand n t ht with ht | ⟨k, e, he, hp, hv⟩
    · obtain ⟨hr, hheld⟩ := h.inHand n t ht
      exact ⟨hf.recorded_mono hr, held_step hst hheld⟩
    · obtain ⟨hr, rfl⟩ := h.sane.recorded he hp hv
      exact ⟨hf.recorded_mono hr, held_step hst ⟨e, he⟩⟩
  executing n t ht := by
    rcases hf.executing n t ht with ht | ht
    · exact (hg n).executed _ (h.executing n t ht)
    · exact ht
  submitted t ht := by
    rcases hf.recorded ht with ht | ⟨_, ht, _⟩ | ⟨u, o, hex, rfl⟩
    · exact hf.submitted _ (h.submitted t ht)
    · exact ht
    · obtain ⟨th, hth, hu⟩ := hex
      rw [ended_id]
      exact hf.submitted _ (h.submitted u (h.inHand node u ⟨th, hth, .inr hu⟩).1)
  pending hno t t' ht ht' hid hid' := by
    have hbefore : ∀ n, tid ∉ (s.board n).executed := fun n hm => hno n ((hg n).executed _ hm)
    have hfinish : ∀ (u : Task α) o, s.Executing node u → (u.ended node o).id ≠ tid := by
      intro u o hex he
      rw [ended_id] at he
      exact hbefore node (he ▸ h.executing node u hex)
    have hnew : ∀ x : Task α, x.id = tid → x.id ∉ s.submitted →
        (∀ t', s'.Recorded t' → s.Recorded t' ∨ t' = x) →
        ∀ y, s'.Recorded y → y.id = tid → y = x := by
      intro x hx hns hall y hy hyid
      rcases hall y hy with hy | hy
      · exact absurd (hx.trans hyid.symm ▸ h.submitted y hy) hns
      · exact hy
    rcases hf.recorded ht with hold | ⟨hns, _, hst, hall⟩ | ⟨u, o, hex, rfl⟩
    · rcases hf.recorded ht' with hold' | ⟨hns, _, hst, hall⟩ | ⟨u, o, hex, rfl⟩
      · exact h.pending hbefore t t' hold hold' hid hid'
      · have heq := hnew t' hid' (hns hid') hall t ht hid
        exact ⟨heq, heq ▸ hst⟩
      · exact absurd hid' (hfinish u o hex)
    · exact ⟨(hnew t hid (hns hid) hall t' ht' hid').symm, hst⟩
    · exact absurd hid (hfinish u o hex)
  claimant n ts hc := by
    rcases hf.claimed hc with hc | ⟨_, t, rfl, hhand, hkind⟩
    · obtain ⟨hheld, t, hr, hid, hk⟩ := h.claimant n ts hc
      exact ⟨held_step hst hheld, t, hf.recorded_mono hr, hid, (hg n).handlers _ hk⟩
    · obtain ⟨hr, hheld⟩ := h.inHand n t hhand
      exact ⟨held_step hst hheld, t, hf.recorded_mono hr, rfl, (hg n).handlers _ hkind⟩

theorem Tended.init (grace : ℕ) (tid : Str) : (TaskSwarm.init grace : TaskSwarm α).Tended tid where
  sane := .init grace
  inHand n t ht := by
    obtain ⟨th, hth, _⟩ := ht
    cases hth
  executing n t ht := by
    obtain ⟨th, hth, _⟩ := ht
    cases hth
  submitted t ht := by
    obtain ⟨e, he, _⟩ := ht
    cases he
  pending _ t t' ht := by
    obtain ⟨e, he, _⟩ := ht
    cases he
  claimant n ts hc := by
    obtain ⟨e, he, _⟩ := hc
    cases he

end TaskSwarm

/-- What a step must meet for a task: ids have no slash, its id is not submitted again, and a node
crashes only if it has not called its handler and, when it has claimed it, some live node has a
lesser claim. -/
def ClusterAction.Spares (tid : Str) (c : TaskCluster α) : ClusterAction α → Prop
  | .act a => ClusterAction.Slashless (.act a)
  | .resubmit _ u .. => '/' ∉ u ∧ u ≠ tid
  | .crash n => tid ∉ (c.swarm.board n).executed ∧ ∀ ts, c.swarm.HoldsClaim n tid n ts →
      ∃ m ts', m ≠ n ∧ m ∉ c.crashed ∧ c.swarm.HoldsClaim m tid m ts' ∧
        toLex (ts', m) < toLex (ts, n)

theorem ClusterAction.Spares.slashless {c : TaskCluster α} {a : ClusterAction α}
    (h : a.Spares tid c) : a.Slashless := by
  cases a with
  | act a => exact h
  | resubmit => exact h.1
  | crash => trivial

namespace TaskCluster

variable {α : Type} [PyNone α]

/-- What every run keeps whose steps spare the task. -/
structure Tended (c : TaskCluster α) (tid : Str) : Prop where
  swarm : c.swarm.Tended tid
  called : ∀ n, tid ∈ (c.swarm.board n).executed → (n, tid) ∈ c.called
  idle : ∀ n ∈ c.crashed, tid ∉ (c.swarm.board n).executed
  lesser : ∀ n ∈ c.crashed, ∀ ts, c.swarm.Claimed tid n ts →
    ∃ m ∉ c.crashed, ∃ ts', c.swarm.Claimed tid m ts' ∧ toLex (ts', m) < toLex (ts, n)

section
omit [PyNone α]

theorem node_of_calls {s : TaskSwarm α} (h : p ∈ s.calls a) : p.1 = a.node := by
  cases a with
  | advance n i clock load storeClock =>
    simp only [TaskSwarm.calls] at h
    split at h
    · rw [List.mem_singleton.1 h]
      rfl
    · cases h
  | submit => cases h
  | registerHandler => cases h
  | setLoadModel => cases h
  | put => cases h
  | evaluate => cases h
  | finish => cases h
  | digest => cases h
  | mergeEntry => cases h
  | applyDigest => cases h

theorem claimed_mono {s s' : TaskSwarm α} (h : ∀ p ∈ s.stores.written, p ∈ s'.stores.written)
    (hc : s.Claimed tid n ts) : s'.Claimed tid n ts := by
  obtain ⟨e, he, hv⟩ := hc
  exact ⟨e, h _ he, hv⟩

end

theorem Tended.act {c : TaskCluster α} (h : c.Tended tid) (hl : b.node ∉ c.crashed)
    (ha : ClusterAction.Slashless (.act b)) (hs : c.swarm.step b = some s) :
    { c with swarm := s, called := c.called ++ s.calls b }.Tended tid := by
  have hf : TaskSwarm.Effect c.swarm s b.node tid (s.calls b) :=
    TaskSwarm.effect_step h.swarm.sane hs
  have hst := TaskSwarm.stores_step hs
  have hg := TaskSwarm.grows_step hs
  have hw : ∀ p ∈ c.swarm.stores.written, p ∈ s.stores.written := by
    rcases hst with he | ⟨a, ha⟩
    · rw [he]
      exact fun p hp => hp
    · exact StoreSwarm.written_mono ha
  refine ⟨h.swarm.step hf (h.swarm.sane.step ha hs) hst hg, ?_, ?_, ?_⟩
  · intro n hn
    rcases hf.executed n tid hn with hn | hn
    · exact List.mem_append_left _ (h.called n hn)
    · exact List.mem_append_right _ hn
  · intro n hn hexec
    rcases hf.executed n tid hexec with hexec | hcall
    · exact h.idle n hn hexec
    · have hnode : n = b.node := node_of_calls hcall
      exact hl (hnode ▸ hn)
  · intro n hn ts hc
    rcases hf.claimed hc with hc | ⟨rfl, _⟩
    · obtain ⟨m, hm, ts', hc', hlt⟩ := h.lesser n hn ts hc
      exact ⟨m, hm, ts', claimed_mono hw hc', hlt⟩
    · exact absurd hn hl

theorem effect_resubmit {s : TaskSwarm α} {st : StoreSwarm ℚ Str Str (Stored α)}
    (hst : s.stores.step (.set n (TASK_PREFIX ++ u)
      (.task (TaskBoard.newTask n u kind args)) clock) = some st) (hu : u ≠ tid) :
    TaskSwarm.Effect s { s with stores := st, submitted := s.submitted ++ [u] } n tid [] := by
  refine .of_threads rfl (fun _ => rfl) (fun _ ht => List.mem_append_left _ ht)
    (.inr ⟨_, _, StoreSwarm.written_set hst, ?_⟩)
  exact .submit (t := TaskBoard.newTask n u kind args) (fun he => absurd he hu)
    (List.mem_append_right _ List.mem_cons_self) rfl

theorem Tended.step {c c' : TaskCluster α} (h : c.Tended tid) (ht : '/' ∉ tid)
    (ha : a.Spares tid c) (hs : c.step a = some c') : c'.Tended tid := by
  have hsane := sane_step h.swarm.sane ha.slashless hs
  rcases step_cases hs with ⟨b, s, rfl, hl, hb, rfl⟩ |
    ⟨n, u, kind, args, clock, st, rfl, hl, hst, rfl⟩ | ⟨n, rfl, rfl⟩
  · exact h.act hl ha hb
  · have hf := effect_resubmit hst ha.2
    have hw := StoreSwarm.written_mono hst
    refine ⟨h.swarm.step hf hsane (.inr ⟨_, hst⟩) (fun _ => .refl _), h.called, h.idle, ?_⟩
    intro m hm ts hc
    rcases hf.claimed hc with hc | ⟨rfl, _⟩
    · obtain ⟨m', hm', ts', hc', hlt⟩ := h.lesser m hm ts hc
      exact ⟨m', hm', ts', claimed_mono hw hc', hlt⟩
    · exact absurd hm hl
  · obtain ⟨hexec, hless⟩ := ha
    have hcrash : ∀ ts, c.swarm.Claimed tid n ts → ∃ m ∉ n :: c.crashed, ∃ ts',
        c.swarm.Claimed tid m ts' ∧ toLex (ts', m) < toLex (ts, n) := by
      intro ts hc
      obtain ⟨m, ts', hne, hm, hc', hlt⟩ := hless ts (hc.own h.swarm.sane ht)
      refine ⟨m, ?_, ts', hc'.claimed h.swarm.sane, hlt⟩
      rw [List.mem_cons, not_or]
      exact ⟨hne, hm⟩
    refine ⟨h.swarm, h.called, ?_, ?_⟩
    · intro m hm
      rcases List.mem_cons.1 hm with rfl | hm
      · exact hexec
      · exact h.idle m hm
    · intro m hm ts hc
      rcases List.mem_cons.1 hm with rfl | hm
      · exact hcrash ts hc
      · obtain ⟨m', hm', ts', hc', hlt⟩ := h.lesser m hm ts hc
        by_cases he : m' = n
        · subst he
          obtain ⟨m'', hm'', ts'', hc'', hlt'⟩ := hcrash ts' hc'
          exact ⟨m'', hm'', ts'', hc'', hlt'.trans hlt⟩
        · refine ⟨m', ?_, ts', hc', hlt⟩
          rw [List.mem_cons, not_or]
          exact ⟨he, hm'⟩

theorem tended_of_run {c : TaskCluster α} (h : Run TaskCluster.step (init grace) past c)
    (ht : '/' ∉ tid) (hp : ∀ p ∈ past, p.2.Spares tid p.1) : c.Tended tid := by
  apply h.invariant (I := fun c => c.Tended tid) (C := fun c a => ClusterAction.Spares tid c a) hp
  · refine ⟨.init grace tid, fun n hn => ?_, fun n hn => ?_, fun n hn => ?_⟩
    · cases hn
    · cases hn
    · cases hn
  · exact fun _ _ _ hc ha hs => hc.step ht ha hs

end TaskCluster

end Suprime
