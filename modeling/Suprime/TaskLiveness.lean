import Suprime.TaskProgress

namespace Suprime
set_option autoImplicit true

/-- Ticks of the boards and deliveries of gossip. -/
def ClusterAction.Tick : ClusterAction α → Prop
  | .act (.evaluate ..) => True
  | .act (.advance ..) => True
  | .act (.finish ..) => True
  | .act (.digest ..) => True
  | .act (.mergeEntry ..) => True
  | .act (.applyDigest ..) => True
  | _ => False

theorem ClusterAction.Tick.slashless {a : ClusterAction α} (h : a.Tick) : a.Slashless := by
  cases a with
  | act a =>
    cases a with
    | submit => cases h
    | registerHandler => trivial
    | setLoadModel => trivial
    | put => trivial
    | evaluate => trivial
    | advance => trivial
    | finish => trivial
    | digest => trivial
    | mergeEntry => trivial
    | applyDigest => trivial
  | resubmit => cases h
  | crash => trivial

namespace TaskSwarm

variable {α : Type}

theorem get_set_ne {st st' : StoreSwarm ℚ Str Str (Stored α)}
    (h : st.step (.set n key value clock) = some st') (hk : k ≠ key) :
    (st'.store n).data.get k = (st.store n).data.get k := by
  cases h
  simp only [StoreSwarm.wrote, Function.update_self]
  exact Dict.get_set_ne _ _ hk

/-- What node `n` knows of a task is not touched. -/
structure Aside (s s' : TaskSwarm α) (n tid : Str) : Prop where
  record : (s'.stores.store n).data.get (TASK_PREFIX ++ tid) =
    (s.stores.store n).data.get (TASK_PREFIX ++ tid)
  claims : ∀ m, (s'.stores.store n).data.get (claimKey tid m) =
    (s.stores.store n).data.get (claimKey tid m)
  age : (s'.board n).claimAge.get tid = (s.board n).claimAge.get tid
  sig : (s'.board n).claimSig.get tid = (s.board n).claimSig.get tid
  executed : tid ∈ (s'.board n).executed → tid ∈ (s.board n).executed

theorem Aside.trans {s₁ s₂ s₃ : TaskSwarm α} (h : Aside s₁ s₂ n tid) (h' : Aside s₂ s₃ n tid) :
    Aside s₁ s₃ n tid where
  record := h'.record.trans h.record
  claims m := (h'.claims m).trans (h.claims m)
  age := h'.age.trans h.age
  sig := h'.sig.trans h.sig
  executed ht := h.executed (h'.executed ht)

theorem Aside.holdsClaim {s s' : TaskSwarm α} (h : Aside s s' n tid) :
    s'.HoldsClaim n tid m ts ↔ s.HoldsClaim n tid m ts := by
  rw [HoldsClaim, HoldsClaim, h.claims m]

theorem holdsClaim_of_contains {s : TaskSwarm α} (h : s.Sane) (ht : '/' ∉ tid)
    (hc : (s.stores.store n).contains (claimKey tid m) = true) :
    ∃ ts, s.HoldsClaim n tid m ts := by
  unfold DistributedStore.contains at hc
  cases he : (s.stores.store n).data.get (claimKey tid m) with
  | none =>
    rw [he] at hc
    cases hc
  | some e =>
    obtain ⟨_, tid', m', ts, ht', hk, hv⟩ :=
      h.log.claim _ (h.traced.prov.held n _ e he) (prefix_claimKey tid m)
    obtain ⟨rfl, rfl⟩ := claimKey_inj ht ht' hk
    exact ⟨ts, e, he, hv⟩

theorem contains_of_holdsClaim {s : TaskSwarm α} (h : s.Sane) (hc : s.HoldsClaim n tid m ts) :
    (s.stores.store n).contains (claimKey tid m) = true := by
  obtain ⟨e, he, _⟩ := hc
  have hd := (h.log.claim _ (h.traced.prov.held n _ e he) (prefix_claimKey tid m)).1
  simp only [DistributedStore.contains, he]
  rw [hd]
  rfl

theorem settle_winner {b b' : TaskBoard} {task : Task α} {d : Dict Str ℚ}
    (h : b.settle d task = (b', runs)) (hx : task.id ∉ b.executed)
    (hw : TaskBoard.winner d = some b.nodeId) :
    b'.claimAge.get task.id = some ((b.claimAge.get task.id).getD 0 + 1) ∧
    b'.claimSig.get task.id = some d.items.toFinset ∧
    (runs = false → b.claimGraceRounds ≤ (b.claimAge.get task.id).getD 0 + 1 →
      b.claimSig.get task.id ≠ some d.items.toFinset) := by
  unfold TaskBoard.settle TaskBoard.maybeExecute at h
  dsimp only at h
  split at h
  · rename_i hwait
    cases h
    refine ⟨Dict.get_set_self _ _ _, Dict.get_set_self _ _ _, fun _ hage hsig => ?_⟩
    rcases hwait with hwait | hwait
    · omega
    · exact hwait hsig
  · rw [if_neg (by rw [not_or, not_not]; exact ⟨hx, hw⟩)] at h
    cases h
    exact ⟨Dict.get_set_self _ _ _, Dict.get_set_self _ _ _, fun hr => by cases hr⟩

theorem settle_ne {b b' : TaskBoard} {task : Task α} {d : Dict Str ℚ}
    (h : b.settle d task = (b', runs)) (hne : tid ≠ task.id) :
    b'.claimAge.get tid = b.claimAge.get tid ∧ b'.claimSig.get tid = b.claimSig.get tid ∧
      (tid ∈ b'.executed → tid ∈ b.executed) := by
  have hexec : tid ∈ b'.executed → tid ∈ b.executed := by
    rw [(TaskBoard.settle_fields h).2.2.2.1]
    split
    · intro ht
      exact (List.mem_cons.1 ht).resolve_left hne
    · exact fun ht => ht
  have hsame : b'.claimAge = b.claimAge.set task.id ((b.claimAge.get task.id).getD 0 + 1) ∧
      b'.claimSig = b.claimSig.set task.id d.items.toFinset := by
    unfold TaskBoard.settle TaskBoard.maybeExecute at h
    dsimp only at h
    split at h
    · cases h
      exact ⟨rfl, rfl⟩
    · split at h
      · cases h
        exact ⟨rfl, rfl⟩
      · cases h
        exact ⟨rfl, rfl⟩
  refine ⟨?_, ?_, hexec⟩
  · rw [hsame.1, Dict.get_set_ne _ _ hne]
  · rw [hsame.2, Dict.get_set_ne _ _ hne]

theorem Sane.claim {s : TaskSwarm α} (h : s.Sane) (ht : '/' ∉ task.id)
    (hst : s.claim n task clock load storeClock = some st) : { s with stores := st }.Sane := by
  rcases claim_spec h hst with ⟨rfl, _⟩ | ⟨hn, ts, hset⟩
  · exact h
  · exact h.write (.claim ht hn) hset (fun _ => rfl) h.ids

theorem exists_claim (s : TaskSwarm α) (n : Str) (task : Task α) :
    ∃ st, s.claim n task 0 0 0 = some st := by
  unfold TaskSwarm.claim
  split
  · exact ⟨_, rfl⟩
  · exact ⟨_, rfl⟩

theorem exists_advance {s : TaskSwarm α} (h : s.Sane)
    (hi : (s.threads n)[i]? = some ⟨task :: rest, none⟩) :
    ∃ s', s.advance n i task rest 0 0 0 = some s' := by
  have ht : '/' ∉ task.id := h.ids n _ (List.mem_of_getElem? hi) task (.inl List.mem_cons_self)
  obtain ⟨st, hst⟩ := exists_claim s n task
  obtain ⟨d, hd, _⟩ := claims_spec (h.claim ht hst) ht n
  unfold TaskSwarm.advance
  split
  · exact ⟨_, rfl⟩
  · split
    · exact ⟨_, rfl⟩
    · rw [hst, Option.bind_eq_bind, Option.bind_some]
      change ∃ s', (TaskBoard.claims (st.store n) task.id).bind _ = some s'
      rw [show TaskBoard.claims (st.store n) task.id = some d from hd]
      exact ⟨_, rfl⟩

/-- The swarm after `evaluate` has listed the tasks of node `n`. -/
def listed (s : TaskSwarm α) (n : Str) (l : List (Task α)) : TaskSwarm α :=
  { s with threads := Function.update s.threads n (s.threads n ++ [⟨l, none⟩]) }

theorem exists_mapM {f : β → Option γ} {l : List β} (h : ∀ a ∈ l, ∃ b, f a = some b) :
    ∃ r, l.mapM f = some r ∧ ∀ a ∈ l, ∀ b, f a = some b → b ∈ r := by
  induction l with
  | nil => exact ⟨[], rfl, fun a ha => by cases ha⟩
  | cons x l ih =>
    obtain ⟨y, hy⟩ := h x List.mem_cons_self
    obtain ⟨r, hr, hmem⟩ := ih (fun a ha => h a (List.mem_cons_of_mem _ ha))
    refine ⟨y :: r, ?_, fun a ha b hb => ?_⟩
    · rw [List.mapM_cons, hy, hr]
      rfl
    · rcases List.mem_cons.1 ha with rfl | ha
      · rw [hy] at hb
        cases hb
        exact List.mem_cons_self
      · exact List.mem_cons_of_mem _ (hmem a ha b hb)

theorem exists_tasks {s : TaskSwarm α} (h : s.Sane) (n : Str) :
    ∃ l, TaskBoard.tasks (s.stores.store n) = some l ∧ ∀ t e,
      (s.stores.store n).data.get (TASK_PREFIX ++ t.id) = some e → e.value = .task t → t ∈ l := by
  have hitem : ∀ p ∈ (s.stores.store n).items.filter (fun p => TASK_PREFIX.isPrefixOf p.1),
      ∃ t, TaskBoard.fromStored p.2 = some t := by
    intro p hp
    obtain ⟨hp, hpre⟩ := List.mem_filter.1 hp
    obtain ⟨q, hq, rfl⟩ := List.mem_map.1 hp
    have hget := Dict.mem_items.1 (List.mem_filter.1 hq).1
    obtain ⟨_, t, hv, _, _⟩ := h.log.record _ (h.traced.prov.held n q.1 q.2 hget)
      (List.isPrefixOf_iff_prefix.1 hpre)
    refine ⟨t, ?_⟩
    dsimp only
    rw [hv]
    rfl
  obtain ⟨l, hl, hmem⟩ := exists_mapM
    (f := fun p : Str × Stored α => TaskBoard.fromStored p.2) hitem
  refine ⟨l, hl, fun t e he hv => ?_⟩
  have hd := (h.log.record _ (h.traced.prov.held n _ e he) (List.prefix_append _ _)).1
  apply hmem (TASK_PREFIX ++ t.id, e.value)
  · rw [List.mem_filter]
    refine ⟨List.mem_map.2 ⟨(TASK_PREFIX ++ t.id, e), ?_, rfl⟩, ?_⟩
    · rw [List.mem_filter]
      exact ⟨Dict.mem_items.2 he, by rw [hd]; rfl⟩
    · exact List.isPrefixOf_iff_prefix.2 (List.prefix_append _ _)
  · dsimp only
    rw [hv]
    rfl

theorem aside_advance {s : TaskSwarm α} (h : s.Sane) (ht : '/' ∉ tid)
    (hi : (s.threads n)[i]? = some ⟨task :: rest, none⟩) (hne : tid ≠ task.id)
    (hs : s.advance n i task rest clock load storeClock = some s') : Aside s s' n tid := by
  have htask : '/' ∉ task.id := h.ids n _ (List.mem_of_getElem? hi) task (.inl List.mem_cons_self)
  have hboard : ∀ b : TaskBoard, (Function.update s.board n b) n = b :=
    fun b => Function.update_self ..
  rcases advance_cases hs with ⟨_, rfl⟩ | ⟨_, _, rfl⟩ | ⟨_, _, st, d, b, runs, hst, _, hb, rfl⟩
  · refine ⟨rfl, fun _ => rfl, ?_, ?_, ?_⟩
    · simp only [TaskSwarm.setThread, TaskSwarm.setBoard, hboard, TaskBoard.forget]
      rw [Dict.get_erase, if_neg hne]
    · simp only [TaskSwarm.setThread, TaskSwarm.setBoard, hboard, TaskBoard.forget]
      rw [Dict.get_erase, if_neg hne]
    · simp only [TaskSwarm.setThread, TaskSwarm.setBoard, hboard, TaskBoard.forget]
      exact fun he => he
  · exact ⟨rfl, fun _ => rfl, rfl, rfl, fun he => he⟩
  · obtain ⟨hage, hsig, hexec⟩ := settle_ne hb hne
    have hstore : ∀ k, (∀ m, k ≠ claimKey task.id m) →
        (st.store n).data.get k = (s.stores.store n).data.get k := by
      intro k hk
      rcases claim_spec h hst with ⟨rfl, _⟩ | ⟨_, ts, hset⟩
      · rfl
      · exact get_set_ne hset (hk n)
    refine ⟨?_, ?_, ?_, ?_, ?_⟩
    · apply hstore
      intro m he
      exact not_task_claimKey task.id m (he ▸ List.prefix_append _ _)
    · intro m
      apply hstore
      intro m' he
      exact hne (claimKey_inj ht htask he).1
    · simp only [TaskSwarm.setThread, TaskSwarm.setBoard, hboard]
      exact hage
    · simp only [TaskSwarm.setThread, TaskSwarm.setBoard, hboard]
      exact hsig
    · simp only [TaskSwarm.setThread, TaskSwarm.setBoard, hboard]
      exact hexec

theorem thread_advance {s : TaskSwarm α} (hi : (s.threads n)[i]? = some ⟨task :: rest, none⟩)
    (hs : s.advance n i task rest clock load storeClock = some s') :
    (s'.threads n)[i]? = some ⟨rest, none⟩ ∨ (s'.threads n)[i]? = some ⟨rest, some task⟩ := by
  rcases advance_cases hs with ⟨_, rfl⟩ | ⟨_, _, rfl⟩ | ⟨_, _, st, d, b, runs, _, _, _, rfl⟩
  · exact .inl (threads_setThread (s := s.setBoard n _) hi)
  · exact .inl (threads_setThread hi)
  · have hi' : (({ s with stores := st }.setBoard n b).threads n)[i]? =
        some ⟨task :: rest, none⟩ := hi
    cases runs with
    | false => exact .inl (threads_setThread hi')
    | true => exact .inr (threads_setThread hi')

theorem aside_finish {s : TaskSwarm α} {st : StoreSwarm ℚ Str Str (Stored α)} {task : Task α}
    (u : EvalThread α)
    (hst : s.stores.step (.set n (TASK_PREFIX ++ task.id) value clock) = some st)
    (hne : tid ≠ task.id) : Aside s ({ s with stores := st }.setThread n i u) n tid := by
  refine ⟨?_, ?_, rfl, rfl, fun he => he⟩
  · apply get_set_ne hst
    intro he
    exact hne (List.append_cancel_left he)
  · intro m
    apply get_set_ne hst
    intro he
    exact not_task_claimKey tid m (he ▸ List.prefix_append _ _)

end TaskSwarm

namespace TaskCluster

variable {α : Type} [PyNone α]

/-- A continuation of ticks and deliveries leads from one state to the other. -/
def Reaches (c c' : TaskCluster α) : Prop :=
  ∃ past, Run TaskCluster.step c past c' ∧ ∀ p ∈ past, p.2.Tick

theorem Reaches.refl (c : TaskCluster α) : c.Reaches c :=
  ⟨[], .start, fun p hp => by cases hp⟩

theorem Reaches.trans {c₁ c₂ c₃ : TaskCluster α} (h : c₁.Reaches c₂) (h' : c₂.Reaches c₃) :
    c₁.Reaches c₃ := by
  obtain ⟨past, hr, hp⟩ := h
  obtain ⟨past', hr', hp'⟩ := h'
  refine ⟨past' ++ past, hr.append hr', fun p hm => ?_⟩
  rcases List.mem_append.1 hm with hm | hm
  · exact hp' p hm
  · exact hp p hm

/-- The state after a live node took an action. -/
def acted (c : TaskCluster α) (a : TaskAction α) (s : TaskSwarm α) : TaskCluster α :=
  { c with swarm := s, called := c.called ++ s.calls a }

theorem reaches_acted {c : TaskCluster α} (hl : a.node ∉ c.crashed)
    (ht : ClusterAction.Tick (.act a)) (hs : c.swarm.step a = some s) :
    c.Reaches (c.acted a s) := by
  have hstep : c.step (.act a) = some (c.acted a s) := by
    simp only [step, if_neg hl, hs, Option.map_some]
    rfl
  refine ⟨[(c, .act a)], Run.start.next hstep, fun p hp => ?_⟩
  rw [List.mem_singleton.1 hp]
  exact ht

theorem turn_other {c : TaskCluster α} {task : Task α} {rest : List (Task α)} {i : ℕ}
    (h : c.swarm.Sane) (hl : n ∉ c.crashed) (ht : '/' ∉ tid)
    (hi : (c.swarm.threads n)[i]? = some ⟨task :: rest, none⟩) (hne : tid ≠ task.id) :
    ∃ c', c.Reaches c' ∧ c'.swarm.Sane ∧ c'.crashed = c.crashed ∧
      (∀ m, (c.swarm.board m).Grows (c'.swarm.board m)) ∧
      c.swarm.Aside c'.swarm n tid ∧ (c'.swarm.threads n)[i]? = some ⟨rest, none⟩ := by
  obtain ⟨s, hs⟩ := TaskSwarm.exists_advance h hi
  have hstep : c.swarm.step (.advance n i 0 0 0) = some s := by
    simp only [TaskSwarm.step, hi]
    exact hs
  have hreach := reaches_acted (c := c) (a := .advance n i 0 0 0) hl trivial hstep
  have hsane := h.step (a := .advance n i 0 0 0) trivial hstep
  have hgrows := TaskSwarm.grows_step hstep
  have haside := TaskSwarm.aside_advance h ht hi hne hs
  rcases TaskSwarm.thread_advance hi hs with hth | hth
  · exact ⟨_, hreach, hsane, rfl, hgrows, haside, hth⟩
  · obtain ⟨st, hst⟩ : ∃ st, s.stores.step (.set n (TASK_PREFIX ++ task.id)
        (.task (task.ended n (.returned pyNone))) 0) = some st := ⟨_, rfl⟩
    have hfin : s.step (.finish n i (.returned pyNone) 0) =
        some ({ s with stores := st }.setThread n i ⟨rest, none⟩) := by
      simp only [TaskSwarm.step, hth, Option.bind_eq_bind, Option.bind_some, hst]
    have hreach' := reaches_acted (c := c.acted (.advance n i 0 0 0) s)
      (a := .finish n i (.returned pyNone) 0) hl trivial hfin
    have hsane' := hsane.step (a := .finish n i (.returned pyNone) 0) trivial hfin
    have hgrows' := TaskSwarm.grows_step hfin
    have haside' := haside.trans (TaskSwarm.aside_finish (i := i) ⟨rest, none⟩ hst hne)
    refine ⟨_, hreach.trans hreach', hsane', rfl, fun m => (hgrows m).trans (hgrows' m), haside',
      ?_⟩
    exact TaskSwarm.threads_setThread (s := { s with stores := st }) hth

/-- Node `n` is bound to call the handler of a pending task: no claim that its store holds is
lesser than its own. -/
structure Poised (c : TaskCluster α) (n : Str) (t : Task α) : Prop where
  sane : c.swarm.Sane
  live : n ∉ c.crashed
  record : ∃ e, (c.swarm.stores.store n).data.get (TASK_PREFIX ++ t.id) = some e ∧
    e.value = .task t
  state : t.state = .PENDING
  kind : t.kind ∈ (c.swarm.board n).handlers
  fresh : t.id ∉ (c.swarm.board n).executed
  least : ∀ m ts, c.swarm.HoldsClaim n t.id m ts →
    ∃ ts', c.swarm.HoldsClaim n t.id n ts' ∧ toLex (ts', n) ≤ toLex (ts, m)

section
omit [PyNone α]

theorem Poised.slashless {c : TaskCluster α} (h : c.Poised n t) : '/' ∉ t.id := by
  obtain ⟨e, he, hv⟩ := h.record
  obtain ⟨_, t', hv', _, ht⟩ :=
    h.sane.log.record _ (h.sane.traced.prov.held n _ e he) (List.prefix_append _ _)
  rw [hv] at hv'
  cases hv'
  exact ht

theorem Poised.aside {c c' : TaskCluster α} (h : c.Poised n t) (hs : c'.swarm.Sane)
    (hc : c'.crashed = c.crashed) (hg : (c.swarm.board n).Grows (c'.swarm.board n))
    (ha : c.swarm.Aside c'.swarm n t.id) : c'.Poised n t where
  sane := hs
  live := hc ▸ h.live
  record := by
    rw [ha.record]
    exact h.record
  state := h.state
  kind := hg.handlers _ h.kind
  fresh he := h.fresh (ha.executed he)
  least m ts hm := by
    obtain ⟨ts', hn, hle⟩ := h.least m ts (ha.holdsClaim.1 hm)
    exact ⟨ts', ha.holdsClaim.2 hn, hle⟩

end

/-- The claims that the board saw in the last round are the ones that its store holds, its own
among them, and `k` more rounds are enough. -/
structure Signed (c : TaskCluster α) (n tid : Str) (k : ℕ) : Prop where
  own : ∃ ts, c.swarm.HoldsClaim n tid n ts
  sig : ∃ sig, (c.swarm.board n).claimSig.get tid = some sig ∧
    ∀ m ts, (m, ts) ∈ sig ↔ c.swarm.HoldsClaim n tid m ts
  age : (c.swarm.board n).claimGraceRounds ≤ ((c.swarm.board n).claimAge.get tid).getD 0 + k

section
omit [PyNone α]

theorem Signed.aside {c c' : TaskCluster α} (h : c.Signed n tid k)
    (hg : (c.swarm.board n).Grows (c'.swarm.board n)) (ha : c.swarm.Aside c'.swarm n tid) :
    c'.Signed n tid k where
  own := by
    obtain ⟨ts, hts⟩ := h.own
    exact ⟨ts, ha.holdsClaim.2 hts⟩
  sig := by
    obtain ⟨sig, hget, hsig⟩ := h.sig
    exact ⟨sig, ha.sig.trans hget, fun m ts => (hsig m ts).trans ha.holdsClaim.symm⟩
  age := by
    rw [hg.grace, ha.age]
    exact h.age

theorem Signed.mono {c : TaskCluster α} (h : c.Signed n tid k) (hk : k ≤ k') :
    c.Signed n tid k' :=
  ⟨h.own, h.sig, h.age.trans (by omega)⟩

theorem Poised.claim {c : TaskCluster α} (h : c.Poised n t)
    (hst : c.swarm.claim n t clock load storeClock = some st) :
    ∃ ts, { c.swarm with stores := st }.HoldsClaim n t.id n ts ∧
      ∀ m ts', { c.swarm with stores := st }.HoldsClaim n t.id m ts' →
        toLex (ts, n) ≤ toLex (ts', m) := by
  have ht := h.slashless
  rcases TaskSwarm.claim_spec h.sane hst with ⟨rfl, hcon⟩ | ⟨hcon, ts, hset⟩
  · obtain ⟨ts, hts⟩ := TaskSwarm.holdsClaim_of_contains h.sane ht hcon
    refine ⟨ts, hts, fun m ts' hm => ?_⟩
    obtain ⟨ts'', hn, hle⟩ := h.least m ts' hm
    rw [(hts.claimed h.sane).unique (hn.claimed h.sane) h.sane]
    exact hle
  · refine ⟨ts, ⟨_, StoreSwarm.get_of_set hset, rfl⟩, fun m ts' hm => ?_⟩
    obtain ⟨e, he, hv⟩ := hm
    by_cases hmn : m = n
    · subst hmn
      rw [show (st.store m).data.get (claimKey t.id m) = _ from StoreSwarm.get_of_set hset] at he
      cases he
      cases hv
      exact le_rfl
    · have hne : claimKey t.id m ≠ claimKey t.id n := fun hk => hmn (claimKey_inj ht ht hk).2
      rw [show (st.store n).data.get (claimKey t.id m) = _ from TaskSwarm.get_set_ne hset hne] at he
      obtain ⟨ts'', hn, _⟩ := h.least m ts' ⟨e, he, hv⟩
      rw [TaskSwarm.contains_of_holdsClaim h.sane hn] at hcon
      cases hcon

theorem toFinset_of_claims {s : TaskSwarm α} {d : Dict Str ℚ} {sig : Finset (Str × ℚ)}
    (hd : ∀ m ts, d.get m = some ts ↔ s.HoldsClaim n tid m ts)
    (hs : ∀ m ts, (m, ts) ∈ sig ↔ s.HoldsClaim n tid m ts) : sig = d.items.toFinset := by
  apply Finset.ext
  rintro ⟨m, ts⟩
  rw [List.mem_toFinset, Dict.mem_items, hs, hd]

end

/-- A live node that is bound to call the handler visits the task: it calls the handler or is a
round nearer to it. -/
theorem turn_self {c : TaskCluster α} {rest : List (Task α)} {i : ℕ} (h : c.Poised n t)
    (hi : (c.swarm.threads n)[i]? = some ⟨t :: rest, none⟩) :
    ∃ c', c.Reaches c' ∧ (c.Signed n t.id 1 → (n, t.id) ∈ c'.called) ∧
      ((n, t.id) ∈ c'.called ∨ (c'.Poised n t ∧
        (c'.swarm.threads n)[i]? = some ⟨rest, none⟩ ∧
        c'.Signed n t.id (c'.swarm.board n).claimGraceRounds ∧
        ∀ k, c.Signed n t.id (k + 1) → c'.Signed n t.id k)) := by
  obtain ⟨s, hs⟩ := TaskSwarm.exists_advance h.sane hi
  have hstep : c.swarm.step (.advance n i 0 0 0) = some s := by
    simp only [TaskSwarm.step, hi]
    exact hs
  have hreach := reaches_acted (c := c) (a := .advance n i 0 0 0) h.live trivial hstep
  have hsane := h.sane.step (a := .advance n i 0 0 0) trivial hstep
  have hgrows := TaskSwarm.grows_step hstep
  rcases TaskSwarm.advance_cases hs with ⟨hno, _⟩ | ⟨_, hno, _⟩ |
    ⟨_, _, st, d, b, runs, hst, hd, hb, rfl⟩
  · exact absurd h.state hno
  · exact absurd h.kind hno
  · have ht := h.slashless
    obtain ⟨d', hd', hspec⟩ := TaskSwarm.claims_spec (h.sane.claim ht hst) ht n
    rw [show TaskBoard.claims (st.store n) t.id = some d from hd] at hd'
    cases hd'
    obtain ⟨ts, hown, hleast⟩ := h.claim hst
    have hw : TaskBoard.winner d = some (c.swarm.board n).nodeId := by
      rw [h.sane.nodeId]
      exact TaskBoard.winner_spec.2
        ⟨ts, (hspec n ts).2 hown, fun m ts' hm => hleast m ts' ((hspec m ts').1 hm)⟩
    obtain ⟨hage, hsig, hwait⟩ := TaskSwarm.settle_winner hb h.fresh hw
    have hi' : (({ c.swarm with stores := st }.setBoard n b).threads n)[i]? =
        some ⟨t :: rest, none⟩ := hi
    have hboard : (({ c.swarm with stores := st }.setBoard n b).setThread n i
        ⟨rest, if runs then some t else none⟩).board n = b := Function.update_self ..
    refine ⟨_, hreach, ?_, ?_⟩
    · intro hsigned
      cases runs with
      | true =>
        simp only [acted, TaskSwarm.calls_setThread hi']
        exact List.mem_append_right _ List.mem_cons_self
      | false =>
        obtain ⟨ts', hown'⟩ := hsigned.own
        obtain ⟨sig, hget, hsig'⟩ := hsigned.sig
        have hsame : st = c.swarm.stores := by
          rcases TaskSwarm.claim_spec h.sane hst with ⟨he, _⟩ | ⟨hcon, _⟩
          · exact he
          · rw [TaskSwarm.contains_of_holdsClaim h.sane hown'] at hcon
            cases hcon
        subst hsame
        rw [toFinset_of_claims hspec hsig'] at hget
        exact absurd hget (hwait rfl hsigned.age)
    · cases runs with
      | true =>
        left
        simp only [acted, TaskSwarm.calls_setThread hi']
        exact List.mem_append_right _ List.mem_cons_self
      | false =>
        right
        have hexec := (TaskBoard.settle_fields hb).2.2.2.1
        have hsigned : ∀ k, (c.swarm.board n).claimGraceRounds ≤
            ((c.swarm.board n).claimAge.get t.id).getD 0 + 1 + k →
            (c.acted (.advance n i 0 0 0) (({ c.swarm with stores := st }.setBoard n b).setThread
              n i ⟨rest, if false then some t else none⟩)).Signed n t.id k := by
          intro k hk
          refine ⟨⟨ts, hown⟩, ⟨d.items.toFinset, ?_, ?_⟩, ?_⟩
          · simp only [acted, hboard]
            exact hsig
          · intro m ts'
            rw [List.mem_toFinset, Dict.mem_items]
            exact hspec m ts'
          · simp only [acted, hboard, hage, Option.getD_some]
            rw [(TaskBoard.settle_fields hb).2.1]
            exact hk
        refine ⟨⟨hsane, h.live, ?_, h.state, (hgrows n).handlers _ h.kind, ?_, ?_⟩,
          TaskSwarm.threads_setThread hi', hsigned _ ?_, ?_⟩
        · obtain ⟨e, he, hv⟩ := h.record
          refine ⟨e, ?_, hv⟩
          rcases TaskSwarm.claim_spec h.sane hst with ⟨rfl, _⟩ | ⟨_, ts', hset⟩
          · exact he
          · have hne : TASK_PREFIX ++ t.id ≠ claimKey t.id n := by
              intro hk
              exact not_task_claimKey t.id n (hk ▸ List.prefix_append _ _)
            exact (TaskSwarm.get_set_ne hset hne).trans he
        · simp only [acted, hboard, hexec]
          exact h.fresh
        · exact fun m ts' hm => ⟨ts, hown, hleast m ts' hm⟩
        · exact (hgrows n).grace.ge.trans (Nat.le_add_left _ _)
        · intro k hk
          apply hsigned
          have hle := hk.age
          omega

theorem drain {c : TaskCluster α} {rest : List (Task α)} {i : ℕ} (h : c.Poised n t)
    (hi : (c.swarm.threads n)[i]? = some ⟨rest, none⟩) (hrest : ∀ u ∈ rest, u.id = t.id → u = t) :
    ∃ c', c.Reaches c' ∧ ((n, t.id) ∈ c'.called ∨ (c'.Poised n t ∧
      (∀ k, c.Signed n t.id k → c'.Signed n t.id k) ∧
      (t ∈ rest → (∃ k, c'.Signed n t.id k) ∧ ¬ c.Signed n t.id 1 ∧
        ∀ k, c.Signed n t.id (k + 1) → c'.Signed n t.id k))) := by
  induction rest generalizing c with
  | nil => exact ⟨c, .refl c, .inr ⟨h, fun k hk => hk, fun hm => by cases hm⟩⟩
  | cons u rest ih =>
    have hrest' := fun x hx => hrest x (List.mem_cons_of_mem _ hx)
    by_cases hu : u.id = t.id
    · cases hrest u List.mem_cons_self hu
      obtain ⟨c₁, hreach, hcall, hturn⟩ := turn_self h hi
      by_cases hc : (n, t.id) ∈ c₁.called
      · exact ⟨c₁, hreach, .inl hc⟩
      · obtain ⟨h₁, hi₁, hsigned, hnext⟩ := hturn.resolve_left hc
        have hnot : ¬ c.Signed n t.id 1 := fun hs => hc (hcall hs)
        obtain ⟨c₂, hreach₂, hc₂ | ⟨h₂, hkeep, _⟩⟩ := ih h₁ hi₁ hrest'
        · exact ⟨c₂, hreach.trans hreach₂, .inl hc₂⟩
        · have hless : ∀ k, c.Signed n t.id (k + 1) → c₂.Signed n t.id k :=
            fun k hk => hkeep k (hnext k hk)
          refine ⟨c₂, hreach.trans hreach₂, .inr ⟨h₂, fun k hk => ?_, fun _ =>
            ⟨⟨_, hkeep _ hsigned⟩, hnot, hless⟩⟩⟩
          exact (hless k (hk.mono (Nat.le_succ k)))
    · obtain ⟨c₁, hreach, hsane, hcr, hg, ha, hi₁⟩ :=
        turn_other h.sane h.live h.slashless hi (fun he => hu he.symm)
      have h₁ := h.aside hsane hcr (hg n) ha
      have hkeep₁ : ∀ k, c.Signed n t.id k → c₁.Signed n t.id k := fun k hk => hk.aside (hg n) ha
      obtain ⟨c₂, hreach₂, hc₂ | ⟨h₂, hkeep, hin⟩⟩ := ih h₁ hi₁ hrest'
      · exact ⟨c₂, hreach.trans hreach₂, .inl hc₂⟩
      · refine ⟨c₂, hreach.trans hreach₂, .inr ⟨h₂, fun k hk => hkeep k (hkeep₁ k hk),
          fun hm => ?_⟩⟩
        have hm' : t ∈ rest := by
          rcases List.mem_cons.1 hm with he | hm
          · exact absurd (congrArg Task.id he).symm hu
          · exact hm
        obtain ⟨hex, hnot, hnext⟩ := hin hm'
        exact ⟨hex, fun hs => hnot (hkeep₁ 1 hs), fun k hk => hnext k (hkeep₁ _ hk)⟩

theorem round {c : TaskCluster α} (h : c.Poised n t) :
    ∃ c', c.Reaches c' ∧ ((n, t.id) ∈ c'.called ∨ (c'.Poised n t ∧
      (∃ k, c'.Signed n t.id k) ∧ ¬ c.Signed n t.id 1 ∧
        ∀ k, c.Signed n t.id (k + 1) → c'.Signed n t.id k)) := by
  obtain ⟨l, hl, hmem⟩ := TaskSwarm.exists_tasks h.sane n
  obtain ⟨e, he, hv⟩ := h.record
  have hstep : c.swarm.step (.evaluate n) = some (c.swarm.listed n l) := by
    simp only [TaskSwarm.step, hl, Option.bind_eq_bind, Option.bind_some]
    rfl
  have hreach := reaches_acted (c := c) (a := .evaluate n) h.live trivial hstep
  have hsane := h.sane.step (a := .evaluate n) trivial hstep
  have haside : c.swarm.Aside (c.swarm.listed n l) n t.id :=
    ⟨rfl, fun _ => rfl, rfl, rfl, fun hx => hx⟩
  have h₁ : (c.acted (.evaluate n) (c.swarm.listed n l)).Poised n t :=
    h.aside hsane rfl (.refl _) haside
  have hthread : ((c.swarm.listed n l).threads n)[(c.swarm.threads n).length]? =
      some ⟨l, none⟩ := by
    simp [TaskSwarm.listed]
  have hrest : ∀ u ∈ l, u.id = t.id → u = t := by
    intro u hu hid
    obtain ⟨k, x, hx, hp, hxv⟩ := TaskSwarm.mem_tasks hl hu
    obtain ⟨_, rfl⟩ := h.sane.recorded hx hp hxv
    rw [hid, he] at hx
    cases hx
    rw [hv] at hxv
    cases hxv
    rfl
  have hkeep : ∀ k, c.Signed n t.id k →
      (c.acted (.evaluate n) (c.swarm.listed n l)).Signed n t.id k :=
    fun k hk => hk.aside (.refl _) haside
  obtain ⟨c', hreach', hc | ⟨h', _, hin⟩⟩ := drain h₁ hthread hrest
  · exact ⟨c', hreach.trans hreach', .inl hc⟩
  · obtain ⟨hex, hnot, hnext⟩ := hin (hmem t e he hv)
    exact ⟨c', hreach.trans hreach', .inr ⟨h', hex, fun hs => hnot (hkeep 1 hs),
      fun k hk => hnext k (hkeep _ hk)⟩⟩

theorem calls_of_signed {c : TaskCluster α} (h : c.Poised n t) (hs : c.Signed n t.id k) :
    ∃ c', c.Reaches c' ∧ (n, t.id) ∈ c'.called := by
  induction k generalizing c with
  | zero =>
    obtain ⟨c', hreach, hc | ⟨_, _, hnot, _⟩⟩ := round h
    · exact ⟨c', hreach, hc⟩
    · exact absurd (hs.mono (Nat.zero_le 1)) hnot
  | succ k ih =>
    obtain ⟨c', hreach, hc | ⟨h', _, _, hnext⟩⟩ := round h
    · exact ⟨c', hreach, hc⟩
    · obtain ⟨c'', hreach', hc⟩ := ih h' (hnext k hs)
      exact ⟨c'', hreach.trans hreach', hc⟩

theorem Poised.calls {c : TaskCluster α} (h : c.Poised n t) :
    ∃ c', c.Reaches c' ∧ (n, t.id) ∈ c'.called := by
  obtain ⟨c', hreach, hc | ⟨h', ⟨k, hk⟩, _⟩⟩ := round h
  · exact ⟨c', hreach, hc⟩
  · obtain ⟨c'', hreach', hc⟩ := calls_of_signed h' hk
    exact ⟨c'', hreach.trans hreach', hc⟩

end TaskCluster

end Suprime
