import Suprime.TaskLiveness
import Suprime.TaskOnce

namespace Suprime
set_option autoImplicit true

namespace TaskSwarm

variable {α : Type}

/-- The claims on a task among all that was written. -/
def claimsOn (s : TaskSwarm α) (tid : Str) : List (Str × ℚ) :=
  s.stores.written.filterMap (fun w => (TaskBoard.readClaim w.2.value).bind
    (fun x => if w.1 = claimKey tid x.1 then some x else none))

theorem mem_claimsOn {s : TaskSwarm α} : (m, ts) ∈ s.claimsOn tid ↔ s.Claimed tid m ts := by
  rw [claimsOn, List.mem_filterMap]
  constructor
  · rintro ⟨⟨k, e⟩, hw, hx⟩
    obtain ⟨x, hr, hx⟩ := Option.bind_eq_some_iff.1 hx
    split at hx
    · rename_i hk
      cases hx
      dsimp only at hk hr
      subst hk
      refine ⟨e, hw, ?_⟩
      cases hv : e.value with
      | claim m' ts' =>
        rw [hv] at hr
        cases hr
        rfl
      | none =>
        rw [hv] at hr
        cases hr
      | task =>
        rw [hv] at hr
        cases hr
      | plain =>
        rw [hv] at hr
        cases hr
    · cases hx
  · rintro ⟨e, he, hv⟩
    refine ⟨_, he, ?_⟩
    simp only [hv, TaskBoard.readClaim, Option.bind_some, if_true]

theorem exists_least {s : TaskSwarm α} (h : s.Claimed tid m ts) :
    ∃ n ts', s.Claimed tid n ts' ∧
      ∀ m ts, s.Claimed tid m ts → toLex (ts', n) ≤ toLex (ts, m) := by
  cases hmin : (s.claimsOn tid).argmin (fun x => toLex (x.2, x.1)) with
  | none =>
    have hmem := mem_claimsOn.2 h
    rw [List.argmin_eq_none.1 hmin] at hmem
    cases hmem
  | some x =>
    refine ⟨x.1, x.2, mem_claimsOn.1 (List.argmin_mem hmin), fun m ts hm => ?_⟩
    have hle := List.le_of_mem_argmin (mem_claimsOn.2 hm) hmin
    exact hle

end TaskSwarm

namespace TaskCluster

variable {α : Type} [PyNone α]

theorem crashed_of_tick {c c' : TaskCluster α} (h : c.step a = some c') (ht : a.Tick) :
    c'.crashed = c.crashed := by
  rcases step_cases h with ⟨b, s, rfl, _, _, rfl⟩ |
    ⟨n, u, kind, args, clock, st, rfl, _, _, rfl⟩ | ⟨n, rfl, rfl⟩
  · rfl
  · rfl
  · cases ht

theorem Reaches.crashed {c c' : TaskCluster α} (h : c.Reaches c') : c'.crashed = c.crashed := by
  obtain ⟨past, hr, hp⟩ := h
  induction hr with
  | start => rfl
  | next _ hs ih =>
    rw [crashed_of_tick hs (hp _ List.mem_cons_self)]
    exact ih (fun p hm => hp p (List.mem_cons_of_mem _ hm))

section
omit [PyNone α]

theorem Tended.poised {c : TaskCluster α} (h : c.Tended tid) (ht : '/' ∉ tid)
    (hno : ∀ n, tid ∉ (c.swarm.board n).executed) (hr : c.swarm.Recorded t) (hid : t.id = tid)
    (hc : c.swarm.Claimed tid n ts)
    (hle : ∀ m ts', c.swarm.Claimed tid m ts' → toLex (ts, n) ≤ toLex (ts', m)) :
    c.Poised n t := by
  obtain ⟨⟨e, he⟩, t', hr', hid', hkind⟩ := h.swarm.claimant n ts hc
  have hone := fun u hu hu' => (h.swarm.pending hno t u hr hu hid hu').1
  obtain ⟨_, u, hv, hk, _⟩ := h.swarm.sane.log.record _
    (h.swarm.sane.traced.prov.held n _ e he) (List.prefix_append _ _)
  have hu : u.id = tid := (List.append_cancel_left hk).symm
  have heq := hone u ⟨e, hu ▸ h.swarm.sane.traced.prov.held n _ e he, hv⟩ hu
  subst hid
  refine ⟨h.swarm.sane, ?_, ⟨e, he, heq ▸ hv⟩, (h.swarm.pending hno t t hr hr rfl rfl).2, ?_,
    hno n, fun m ts' hm => ⟨ts, hc.own h.swarm.sane ht, hle m ts' (hm.claimed h.swarm.sane)⟩⟩
  · intro hcr
    obtain ⟨m, _, ts', hc', hlt⟩ := h.lesser n hcr ts hc
    exact absurd (hle m ts' hc') (not_le.2 hlt)
  · rw [hone t' hr' hid']
    exact hkind

theorem get_applyDigest {s t : TaskStore α} (h : s.data.get k = some e) :
    ∃ e', (t.applyDigest s.digest).store.data.get k = some e' := by
  have hnew := DistributedStore.isNewest_merge (s := t) (fun k => t.isNewest_self k)
    (s.digest.items.map (fun p => (p.1, Entry.fromDict p.2))) k
  have hmem : (k, e) ∈ s.digest.items.map (fun p => (p.1, Entry.fromDict p.2)) := by
    have hpairs := StoreSwarm.pairsOf_digest s
    rw [StoreSwarm.pairsOf] at hpairs
    rw [hpairs]
    exact Dict.mem_items.2 h
  obtain ⟨e', he', _⟩ := hnew.le (.inr hmem)
  exact ⟨e', he'⟩

end

theorem Tended.gossip {c : TaskCluster α} (h : c.Tended tid) (hp : p ∉ c.crashed)
    (hn : n ∉ c.crashed) : ∃ c', c.Reaches c' ∧ c'.Tended tid ∧
      c'.swarm.stores.written = c.swarm.stores.written ∧ c'.swarm.board = c.swarm.board ∧
      ∀ k e, (c.swarm.stores.store p).data.get k = some e →
        ∃ e', (c'.swarm.stores.store n).data.get k = some e' := by
  obtain ⟨s₁, hs₁⟩ : ∃ s₁, c.swarm.step (.digest p) = some s₁ := ⟨_, rfl⟩
  have h₁ := h.act (b := .digest p) hp trivial hs₁
  have hreach₁ := reaches_acted (c := c) (a := .digest p) hp trivial hs₁
  cases hs₁
  have hd : (c.swarm.stores.digests ++ [(c.swarm.stores.store p).digest])[
      c.swarm.stores.digests.length]? = some (c.swarm.stores.store p).digest := by simp
  obtain ⟨s₂, hs₂, hw, hb, hst⟩ : ∃ s₂ : TaskSwarm α, { c.swarm with stores :=
        { c.swarm.stores with digests :=
          c.swarm.stores.digests ++ [(c.swarm.stores.store p).digest] } }.step
        (.applyDigest n c.swarm.stores.digests.length) = some s₂ ∧
      s₂.stores.written = c.swarm.stores.written ∧ s₂.board = c.swarm.board ∧
      s₂.stores.store n = ((c.swarm.stores.store n).applyDigest
        (c.swarm.stores.store p).digest).store := by
    simp only [TaskSwarm.step, StoreSwarm.step, hd, Option.bind_eq_bind, Option.bind_some]
    exact ⟨_, rfl, rfl, rfl, by simp only [StoreSwarm.given, Function.update_self]⟩
  have hreach₂ := reaches_acted (c := c.acted (.digest p) _)
    (a := .applyDigest n c.swarm.stores.digests.length) hn trivial hs₂
  have h₂ := Tended.act (c := c.acted (.digest p) _)
    (b := .applyDigest n c.swarm.stores.digests.length) h₁ hn trivial hs₂
  refine ⟨_, hreach₁.trans hreach₂, h₂, hw, hb, fun k e he => ?_⟩
  have hheld := get_applyDigest (t := c.swarm.stores.store n) he
  simp only [acted, hst]
  exact hheld

/-- While no node has claimed a task, a live node with a handler for it that is given the digest of
a live node that holds the task is bound to call its handler. -/
theorem Tended.deliver {c : TaskCluster α} (h : c.Tended tid)
    (hno : ∀ n, tid ∉ (c.swarm.board n).executed) (hnone : ∀ m ts, ¬ c.swarm.Claimed tid m ts)
    (hp : p ∉ c.crashed) (hn : n ∉ c.crashed)
    (he : (c.swarm.stores.store p).data.get (TASK_PREFIX ++ tid) = some e)
    (hr : c.swarm.Recorded t) (hid : t.id = tid) (hk : t.kind ∈ (c.swarm.board n).handlers) :
    ∃ c', c.Reaches c' ∧ c'.Poised n t := by
  obtain ⟨c', hreach, h', hw, hb, hheld⟩ := h.gossip hp hn
  obtain ⟨e', he'⟩ := hheld _ e he
  have hno' : ∀ m, tid ∉ (c'.swarm.board m).executed := fun m => hb ▸ hno m
  have hr' : c'.swarm.Recorded t := by
    obtain ⟨x, hx, hv⟩ := hr
    exact ⟨x, hw ▸ hx, hv⟩
  have hsane := h'.swarm.sane
  have hwrote := hsane.traced.prov.held n _ e' he'
  obtain ⟨_, u, hv, hku, _⟩ := hsane.log.record _ hwrote (List.prefix_append _ _)
  have hu : u.id = tid := (List.append_cancel_left hku).symm
  have hone := h'.swarm.pending hno' t u hr' ⟨e', hu ▸ hwrote, hv⟩ hid hu
  subst hid
  refine ⟨c', hreach, hsane, ?_, ⟨e', he', hone.1 ▸ hv⟩, hone.2, ?_, hno' n, ?_⟩
  · rw [hreach.crashed]
    exact hn
  · rw [hb]
    exact hk
  · intro m ts hm
    obtain ⟨x, hx, hxv⟩ := hm.claimed hsane
    exact absurd ⟨x, hw ▸ hx, hxv⟩ (hnone m ts)

/-- What the state of a run says of a task: a live node has called its handler or can still do so
by ticks of live nodes and gossip among them. -/
def Executable (c : TaskCluster α) (tid : Str) : Prop :=
  (∃ n ∉ c.crashed, (n, tid) ∈ c.called) ∨
    ∃ c', c.Reaches c' ∧ ∃ n ∉ c'.crashed, (n, tid) ∈ c'.called

theorem Poised.executable {c c' : TaskCluster α} (hreach : c.Reaches c') (h : c'.Poised n t) :
    c.Executable t.id := by
  obtain ⟨c'', hreach', hcall⟩ := h.calls
  refine .inr ⟨c'', hreach.trans hreach', n, ?_, hcall⟩
  rw [hreach'.crashed]
  exact h.live

theorem Tended.executable {c : TaskCluster α} (h : c.Tended tid) (ht : '/' ∉ tid)
    (hp : p ∉ c.crashed) (hn : n ∉ c.crashed)
    (he : (c.swarm.stores.store p).data.get (TASK_PREFIX ++ tid) = some e)
    (hr : c.swarm.Recorded t) (hid : t.id = tid) (hk : t.kind ∈ (c.swarm.board n).handlers) :
    c.Executable tid := by
  by_cases hno : ∀ m, tid ∉ (c.swarm.board m).executed
  · by_cases hclaim : ∃ m ts, c.swarm.Claimed tid m ts
    · obtain ⟨m, ts, hc⟩ := hclaim
      obtain ⟨m', ts', hc', hle⟩ := TaskSwarm.exists_least hc
      have hpoised := h.poised ht hno hr hid hc' hle
      exact hid ▸ hpoised.executable (.refl c)
    · have hnone : ∀ m ts, ¬ c.swarm.Claimed tid m ts := fun m ts hc => hclaim ⟨m, ts, hc⟩
      obtain ⟨c', hreach, hpoised⟩ := h.deliver hno hnone hp hn he hr hid hk
      exact hid ▸ hpoised.executable hreach
  · obtain ⟨m, hm⟩ := not_forall.1 hno
    rw [not_not] at hm
    exact .inl ⟨m, fun hcr => h.idle m hcr hm, h.called m hm⟩

section
omit [PyNone α]

theorem get_of_getTask {s : TaskSwarm α}
    (h : TaskBoard.getTask (s.stores.store n) tid = some t) :
    ∃ e, (s.stores.store n).data.get (TASK_PREFIX ++ tid) = some e ∧ e.value = .task t := by
  unfold TaskBoard.getTask DistributedStore.get at h
  cases he : (s.stores.store n).data.get (TASK_PREFIX ++ tid) with
  | none =>
    rw [he] at h
    cases h
  | some e =>
    rw [he] at h
    dsimp only at h
    split at h
    · cases h
    · refine ⟨e, rfl, ?_⟩
      cases hv : e.value with
      | task t' =>
        rw [hv] at h
        cases h
        rfl
      | none =>
        rw [hv] at h
        cases h
      | claim =>
        rw [hv] at h
        cases h
      | plain =>
        rw [hv] at h
        cases h

end

/-- In a run whose steps all spare a task, the task is executable in every state in which a live
node holds its record, as of a pending task or not, and a live node has a handler for its kind. -/
theorem pending_task_executable {c : TaskCluster α} {grace : ℕ} {tid : Str} {t : Task α}
    {p n : Str} {past : List (TaskCluster α × ClusterAction α)}
    (h : Run TaskCluster.step (init grace) past c) (hs : ∀ q ∈ past, q.2.Spares tid q.1)
    (hp : p ∉ c.crashed) (hget : TaskBoard.getTask (c.swarm.stores.store p) tid = some t)
    (hn : n ∉ c.crashed) (hk : t.kind ∈ (c.swarm.board n).handlers) :
    c.Executable tid := by
  obtain ⟨e, he, hv⟩ := get_of_getTask hget
  have hsane := sane_of_run h (fun q hq => (hs q hq).slashless)
  obtain ⟨hr, hkey⟩ := hsane.recorded he (List.prefix_append _ _) hv
  have hid : t.id = tid := (List.append_cancel_left hkey).symm
  obtain ⟨_, t', hv', _, ht⟩ := hsane.log.record _ (hsane.traced.prov.held p _ e he)
    (List.prefix_append _ _)
  rw [hv] at hv'
  cases hv'
  exact (tended_of_run h (hid ▸ ht) hs).executable (hid ▸ ht) hp hn he hr hid hk

/-- Whether a step spares a task, where a node that has claimed it crashes only if node `m` is live
and has the lesser claim. -/
def sparedBy (tid m : Str) (c : TaskCluster α) : ClusterAction α → Bool
  | .act a => decide (ClusterAction.Slashless (.act a))
  | .resubmit _ u .. => decide ('/' ∉ u ∧ u ≠ tid)
  | .crash n => decide (tid ∉ (c.swarm.board n).executed) &&
    match (c.swarm.stores.store n).data.get (claimKey tid n),
      (c.swarm.stores.store m).data.get (claimKey tid m) with
    | none, _ => true
    | some ⟨.claim _ ts, _, _⟩, some ⟨.claim m' ts', _, _⟩ =>
      decide (m ≠ n ∧ m ∉ c.crashed ∧ m' = m ∧ toLex (ts', m) < toLex (ts, n))
    | _, _ => false

section
omit [PyNone α]

theorem spares_of_sparedBy {c : TaskCluster α} {a : ClusterAction α}
    (h : sparedBy tid m c a = true) : a.Spares tid c := by
  cases a with
  | act a =>
    have hs : ClusterAction.Slashless (.act a) := of_decide_eq_true h
    exact hs
  | resubmit n u kind args clock =>
    have hu : '/' ∉ u ∧ u ≠ tid := of_decide_eq_true h
    exact hu
  | crash n =>
    simp only [sparedBy, Bool.and_eq_true, decide_eq_true_eq] at h
    refine ⟨h.1, fun ts hc => ?_⟩
    obtain ⟨e, he, hv⟩ := hc
    obtain ⟨value, version, deleted⟩ := e
    dsimp only at hv
    subst hv
    simp only [he] at h
    obtain ⟨_, h⟩ := h
    split at h
    · rename_i heq
      cases heq
    · rename_i heq hm
      cases heq
      have hlesser := of_decide_eq_true h
      obtain ⟨hne, hl, rfl, hlt⟩ := hlesser
      exact ⟨_, _, hne, hl, ⟨_, hm, rfl⟩, hlt⟩
    · cases h

end

/-- Nodes `a` and `b` claim a task, and `b` crashes, whose claim is the greater one. -/
def sparedRun : List (ClusterAction (Option ℕ)) :=
  [.act (.registerHandler ['a'] ['k']), .act (.registerHandler ['b'] ['k']),
    .act (.submit ['a'] ['t'] ['k'] none 1), .act (.digest ['a']), .act (.applyDigest ['b'] 0),
    .act (.evaluate ['a']), .act (.advance ['a'] 0 2 0 2),
    .act (.evaluate ['b']), .act (.advance ['b'] 0 3 0 3), .act (.digest ['b']),
    .act (.applyDigest ['a'] 1), .crash ['b']]

theorem pending_task_executable_of_two : ∃ past c,
    Run TaskCluster.step (init 2 : TaskCluster (Option ℕ)) past c ∧
    (∀ q ∈ past, q.2.Spares ['t'] q.1) ∧ c.crashed = [['b']] ∧ c.called = [] ∧
    c.Executable ['t'] := by
  obtain ⟨past, c, hr, hC, hs⟩ := exists_run_of_execWhere TaskCluster.step
    (fun c a => sparedBy ['t'] ['a'] c a = true) (init 2 : TaskCluster (Option ℕ)) sparedRun
    (fun c => decide (c.crashed = [['b']] ∧ c.called = [] ∧
      TaskBoard.getTask (c.swarm.stores.store ['a']) ['t'] =
        some (TaskBoard.newTask ['a'] ['t'] ['k'] none) ∧
      (c.swarm.board ['a']).handlers = [['k']])) true (by decide)
  obtain ⟨hcr, hcalled, hget, hh⟩ := of_decide_eq_true hs
  have hlive : ['a'] ∉ c.crashed := by
    rw [hcr]
    decide
  have hspares := fun q hq => spares_of_sparedBy (hC q hq)
  refine ⟨past, c, hr, hspares, hcr, hcalled, ?_⟩
  apply pending_task_executable hr hspares hlive hget hlive
  rw [hh]
  exact List.mem_cons_self

theorem holdsClaim_step {c c' : TaskCluster α} (h : c.swarm.Sane) (h' : c'.swarm.Sane)
    (hs : c.step a = some c') (hc : c.swarm.HoldsClaim n tid m ts) :
    c'.swarm.HoldsClaim n tid m ts := by
  obtain ⟨e, he, hv⟩ := hc
  rcases stores_step hs with heq | ⟨b, hb⟩
  · exact ⟨e, heq ▸ he, hv⟩
  · obtain ⟨e', he', _⟩ := StoreSwarm.get_step hb he
    have hold := StoreSwarm.written_mono hb _ (h.traced.prov.held n _ e he)
    have hnew := h'.traced.prov.held n _ e' he'
    cases h'.log.once _ hold _ hnew (prefix_claimKey tid m) rfl
    exact ⟨e, he', hv⟩

theorem not_called_of_lesser {c c' : TaskCluster α} (h : c.swarm.Sane) (h' : c'.swarm.Sane)
    (ht : '/' ∉ tid) (hs : c.step a = some c') (hm : c.swarm.HoldsClaim n tid m ts)
    (hn : c.swarm.HoldsClaim n tid n ts') (hlt : toLex (ts, m) < toLex (ts', n)) :
    (n, tid) ∉ newCalls c c' := by
  intro hcall
  have hm' := holdsClaim_step h h' hs hm
  have hn' := holdsClaim_step h h' hs hn
  obtain ⟨b, rfl, hb, hcalls⟩ := mem_newCalls hs hcall
  obtain ⟨d, hd, hw⟩ := TaskSwarm.winner_of_calls h hb hcalls
  obtain ⟨d', hd', hspec⟩ := TaskSwarm.claims_spec h' ht n
  rw [hd] at hd'
  cases hd'
  obtain ⟨ts'', hget, hle⟩ := TaskBoard.winner_spec.1 hw
  have hown := (hspec n ts'').1 hget
  rw [(hown.claimed h').unique (hn'.claimed h') h'] at hle
  exact absurd (hle m ts ((hspec m ts).2 hm')) (not_le.2 hlt)

/-- Only node `n` has handlers among the live nodes, and its store holds a lesser claim on the task
than its own. -/
structure Stranded (c : TaskCluster α) (tid n : Str) : Prop where
  sane : c.swarm.Sane
  handlers : ∀ m ∉ c.crashed, m ≠ n → (c.swarm.board m).handlers = []
  lesser : ∃ m ts ts', c.swarm.HoldsClaim n tid m ts ∧ c.swarm.HoldsClaim n tid n ts' ∧
    toLex (ts, m) < toLex (ts', n)
  idle : ∀ m ∉ c.crashed, (m, tid) ∉ c.called

theorem called_step {c c' : TaskCluster α} (h : c.step a = some c') :
    ∀ p ∈ c'.called, p ∈ c.called ∨ p ∈ newCalls c c' := by
  rcases step_cases h with ⟨b, s, rfl, _, _, rfl⟩ |
    ⟨n, tid, kind, args, clock, st, rfl, _, _, rfl⟩ | ⟨n, rfl, rfl⟩
  · intro p hp
    rw [newCalls, List.drop_left]
    exact List.mem_append.1 hp
  · exact fun p hp => .inl hp
  · exact fun p hp => .inl hp

theorem handlers_of_tick {c c' : TaskCluster α} (h : c.step a = some c') (ht : a.Tick)
    (hk : k ∈ (c'.swarm.board n).handlers) : k ∈ (c.swarm.board n).handlers := by
  rcases step_cases h with ⟨b, s, rfl, _, hs, rfl⟩ |
    ⟨m, u, kind, args, clock, st, rfl, _, _, rfl⟩ | ⟨m, rfl, rfl⟩
  · rcases (TaskSwarm.boardStep hs n).handlers hk with hk | hr
    · exact hk
    · cases b with
      | registerHandler => cases ht
      | _ => cases hr
  · cases ht
  · cases ht

theorem Stranded.step {c c' : TaskCluster α} (h : c.Stranded tid n) (ht : '/' ∉ tid)
    (ha : a.Tick) (hs : c.step a = some c') : c'.Stranded tid n := by
  have hsane := sane_step h.sane ha.slashless hs
  have hcr := crashed_of_tick hs ha
  obtain ⟨m, ts, ts', hm, hn, hlt⟩ := h.lesser
  refine ⟨hsane, ?_, ⟨m, ts, ts', holdsClaim_step h.sane hsane hs hm,
    holdsClaim_step h.sane hsane hs hn, hlt⟩, ?_⟩
  · intro u hu hne
    apply List.eq_nil_iff_forall_not_mem.2
    intro k hk
    have hold := handlers_of_tick hs ha hk
    rw [h.handlers u (hcr ▸ hu) hne] at hold
    cases hold
  · intro u hu hcall
    rcases called_step hs _ hcall with hcall | hcall
    · exact h.idle u (hcr ▸ hu) hcall
    · by_cases hun : u = n
      · exact not_called_of_lesser h.sane hsane ht hs hm hn hlt (hun ▸ hcall)
      · obtain ⟨b, rfl, hb, hcalls⟩ := mem_newCalls hs hcall
        obtain ⟨_, _, _, _, task, _, _, _, _, _, _, _, _, hkind, _⟩ := TaskSwarm.mem_calls hb hcalls
        rw [h.handlers u (hcr ▸ hu) hun] at hkind
        cases hkind

/-- A stranded task is never executed by a live node. -/
theorem Stranded.not_executable {c : TaskCluster α} (h : c.Stranded tid n) (ht : '/' ∉ tid) :
    ¬ c.Executable tid := by
  rintro (⟨m, hm, hcall⟩ | ⟨c', ⟨past, hr, hp⟩, m, hm, hcall⟩)
  · exact h.idle m hm hcall
  · have h' : c'.Stranded tid n := hr.invariant (I := fun c => c.Stranded tid n)
      (C := fun _ a => ClusterAction.Tick a) hp h
      (fun _ _ _ hc ha hs => hc.step ht ha hs)
    exact h'.idle m hm hcall

theorem handlers_of_run {c : TaskCluster α} (h : Run TaskCluster.step (init grace) past c)
    (hk : k ∈ (c.swarm.board n).handlers) :
    ∃ p ∈ past, p.2 = .act (.registerHandler n k) := by
  induction h with
  | start => cases hk
  | @next past u a c hr hs ih =>
    have hstep : k ∈ (u.swarm.board n).handlers ∨ a = .act (.registerHandler n k) := by
      rcases step_cases hs with ⟨b, s, rfl, _, hb, rfl⟩ |
        ⟨m, tid, kind, args, clock, st, rfl, _, _, rfl⟩ | ⟨m, rfl, rfl⟩
      · rcases (TaskSwarm.boardStep hb n).handlers hk with hk | hreg
        · exact .inl hk
        · cases b with
          | registerHandler m kind =>
            simp only [TaskSwarm.registered] at hreg
            split at hreg
            · rename_i hm
              cases hreg
              exact .inr (by rw [hm])
            · cases hreg
          | _ => cases hreg
      · exact .inl hk
      · exact .inl hk
    rcases hstep with hk | rfl
    · obtain ⟨p, hp, heq⟩ := ih hk
      exact ⟨p, List.mem_cons_of_mem _ hp, heq⟩
    · exact ⟨_, List.mem_cons_self, rfl⟩

/-- Node `c` claims a task first, and crashes after node `a` has its claim. -/
def strandedRun : List (ClusterAction (Option ℕ)) :=
  [.act (.registerHandler ['a'] ['k']), .act (.registerHandler ['c'] ['k']),
    .act (.submit ['c'] ['t'] ['k'] none 1), .act (.evaluate ['c']),
    .act (.advance ['c'] 0 2 0 2), .act (.digest ['c']), .act (.applyDigest ['a'] 0),
    .act (.evaluate ['a']), .act (.advance ['a'] 0 3 0 3), .crash ['c']]

def registers (nodes : List Str) : ClusterAction α → Bool
  | .act (.registerHandler n _) => decide (n ∈ nodes)
  | _ => true

theorem claim_of_crashed_strands : ∃ past c t,
    Run TaskCluster.step (init 2 : TaskCluster (Option ℕ)) past c ∧
    (∀ q ∈ past, q.2.Slashless) ∧ c.crashed = [['c']] ∧
    TaskBoard.getTask (c.swarm.stores.store ['a']) ['t'] = some t ∧ t.state = .PENDING ∧
    t.kind ∈ (c.swarm.board ['a']).handlers ∧ ¬ c.Executable ['t'] := by
  obtain ⟨past, c, hr, hs⟩ := exists_run_of_execPast TaskCluster.step
    (init 2 : TaskCluster (Option ℕ)) strandedRun
    (fun past c => decide ((∀ q ∈ past, q.2.Slashless) ∧
      (∀ q ∈ past, registers [['a'], ['c']] q.2 = true) ∧ c.crashed = [['c']] ∧ c.called = [] ∧
      TaskBoard.getTask (c.swarm.stores.store ['a']) ['t'] =
        some (TaskBoard.newTask ['c'] ['t'] ['k'] none) ∧
      (c.swarm.board ['a']).handlers = [['k']] ∧
      ((c.swarm.stores.store ['a']).data.get (claimKey ['t'] ['c'])).map (fun e => e.value) =
        some (.claim ['c'] 2) ∧
      ((c.swarm.stores.store ['a']).data.get (claimKey ['t'] ['a'])).map (fun e => e.value) =
        some (.claim ['a'] 3))) true (by decide)
  obtain ⟨hids, hreg, hcr, hcalled, hget, hh, hc, ha⟩ := of_decide_eq_true hs
  refine ⟨past, c, _, hr, hids, hcr, hget, rfl, hh ▸ List.mem_cons_self, ?_⟩
  apply Stranded.not_executable (n := ['a']) _ (by decide)
  refine ⟨sane_of_run hr hids, ?_, ⟨['c'], 2, 3, ?_, ?_, by decide⟩, ?_⟩
  · intro m hm hne
    apply List.eq_nil_iff_forall_not_mem.2
    intro k hk
    obtain ⟨p, hp, heq⟩ := handlers_of_run hr hk
    have hmem := hreg p hp
    rw [heq] at hmem
    have hmem' : m = ['a'] ∨ m = ['c'] := by simpa [registers] using hmem
    rcases hmem' with rfl | rfl
    · exact hne rfl
    · exact hm (hcr ▸ List.mem_cons_self)
  · exact Option.map_eq_some_iff.1 hc
  · exact Option.map_eq_some_iff.1 ha
  · intro m _ hm
    rw [hcalled] at hm
    cases hm

end TaskCluster

end Suprime
