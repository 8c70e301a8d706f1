import Suprime.PyValue
import Suprime.SimMoves
import Suprime.SimHistory
import Suprime.StoreSwarm

namespace Suprime
set_option autoImplicit true

namespace StoreSwarm

variable {T ν κ : Type} {β : Type u} [LinearOrder ν]

theorem store_wrote (s : StoreSwarm T ν κ β) (n : ν) (o : DistributedStore T ν κ β)
    (pairs : List (κ × Entry T ν β)) : (s.wrote n o pairs).store n = o ∧
      ∀ m, m ≠ n → (s.wrote n o pairs).store m = s.store m :=
  ⟨Function.update_self _ _ _, fun _ hm => Function.update_of_ne hm _ _⟩

theorem store_given (s : StoreSwarm T ν κ β) (n : ν) (o : DistributedStore T ν κ β)
    (pairs : List (κ × Entry T ν β)) : (s.given n o pairs).store n = o ∧
      ∀ m, m ≠ n → (s.given n o pairs).store m = s.store m :=
  ⟨Function.update_self _ _ _, fun _ hm => Function.update_of_ne hm _ _⟩

end StoreSwarm

namespace Simulation

variable {ρ α : Type}

theorem toList_idOf (i : ℕ) : (idOf i).toList = 'n' :: Nat.toDigits 10 i := by
  have hdigits : (toString i).toList = Nat.toDigits 10 i := by
    change (Nat.repr i).toList = _
    rw [Nat.repr_eq_ofList_toDigits, String.toList_ofList]
  rw [idOf, String.toList_append, hdigits]
  rfl

theorem idOf_injective : Function.Injective (fun i => (idOf i).toList) := by
  intro i j h
  simp only [toList_idOf, List.cons.injEq, true_and] at h
  exact toDigits_injective h

/-- The stores of a simulation are those of a swarm of stores, and every digest on its way was
built there. -/
structure Mirrors (w : Midway ρ α) (st : StoreSwarm ℚ Str Str (Stored α)) : Prop where
  store : ∀ i, st.store (idOf i).toList = (w.sim.nodes i).store
  queued : ∀ q ∈ w.sim.network.queue ++ w.due, ∀ d, q.message.body.digest? = some d →
    d ∈ st.digests
  given : ∀ m ∈ w.given, ∀ d, m.body.digest? = some d → d ∈ st.digests

namespace Mirrors

variable {s s' : Simulator ρ α} {due due' : List (Queued α)} {given given' : List (SimMessage α)}
  {st : StoreSwarm ℚ Str Str (Stored α)}

theorem init (random : PyRandom ρ) (cfg : SimConfig) :
    Mirrors ⟨(Simulator.init random cfg : Simulator ρ α), [], []⟩ StoreSwarm.init where
  store i := rfl
  queued q hq := by cases hq
  given m hm := by cases hm

theorem same (h : Mirrors ⟨s, due, given⟩ st)
    (hstore : ∀ i, (s'.nodes i).store = (s.nodes i).store)
    (hqueue : s'.network.queue ++ due' ⊆ s.network.queue ++ due)
    (hgiven : ∀ m ∈ given', m ∈ given ∨ ∃ q ∈ s.network.queue ++ due, q.message = m) :
    Mirrors ⟨s', due', given'⟩ st where
  store i := (h.store i).trans (hstore i).symm
  queued q hq := h.queued q (hqueue hq)
  given m hm d hd := by
    rcases hgiven m hm with hold | ⟨q, hq, rfl⟩
    · exact h.given m hold d hd
    · exact h.queued q hq d hd

theorem rest (h : Mirrors ⟨s, due, given⟩ st) (hs : s.Rests s') : Mirrors ⟨s', due, given⟩ st := by
  apply h.same
  · intro i
    rw [hs.nodes]
  · rw [hs.queue]
    exact fun x hx => hx
  · exact fun m hm => .inl hm

/-- A node changes, but not its store. -/
theorem setNode (h : Mirrors ⟨s, due, given⟩ st) (hn : n.store = (s.nodes i).store) :
    Mirrors ⟨s.setNode i n, due, given⟩ st := by
  refine h.same (fun j => ?_) (fun x hx => hx) (fun m hm => .inl hm)
  by_cases hji : j = i
  · subst hji
    simp only [Simulator.setNode, Function.update_self]
    exact hn
  · simp only [Simulator.setNode, Function.update_of_ne hji]

theorem update (h : Mirrors ⟨s, due, given⟩ st) {st' : StoreSwarm ℚ Str Str (Stored α)}
    (hstore : st'.store (idOf i).toList = o ∧
      ∀ k, k ≠ (idOf i).toList → st'.store k = st.store k)
    (hdigests : st'.digests = st.digests)
    (hnodes : s'.nodes = Function.update s.nodes i n) (hn : n.store = o)
    (hqueue : s'.network.queue = s.network.queue) : Mirrors ⟨s', due, given⟩ st' where
  store j := by
    dsimp only
    rw [hnodes]
    by_cases hji : j = i
    · subst hji
      rw [hstore.1, Function.update_self, hn]
    · have hne : (idOf j).toList ≠ (idOf i).toList := fun he => hji (idOf_injective he)
      rw [hstore.2 _ hne, Function.update_of_ne hji]
      exact h.store j
  queued := by
    dsimp only
    rw [hqueue, hdigests]
    exact h.queued
  given := by
    rw [hdigests]
    exact h.given

end Mirrors

theorem run_one {st st' : StoreSwarm ℚ Str Str (Stored α)} {a : StoreAction ℚ Str Str (Stored α)}
    (h : st.step a = some st') : ∃ past, Run StoreSwarm.step st past st' := ⟨_, Run.start.next h⟩

namespace Mirrors

variable {random : PyRandom ρ} {inputs : Inputs} {s s' : Simulator ρ α}
  {due due' : List (Queued α)} {given given' : List (SimMessage α)}
  {st : StoreSwarm ℚ Str Str (Stored α)}

theorem write (h : Mirrors ⟨s, due, given⟩ st) (hs : s.write inputs i key value = some s') :
    ∃ past st', Run StoreSwarm.step st past st' ∧ Mirrors ⟨s', due, given⟩ st' := by
  obtain ⟨clock, _, hs⟩ := Option.bind_eq_some_iff.1 hs
  cases hs
  have hstep : st.step (.set (idOf i).toList key value clock) = some _ := rfl
  obtain ⟨past, hrun⟩ := run_one hstep
  refine ⟨past, _, hrun, h.update (st.store_wrote _ _ _) rfl rfl ?_ rfl⟩
  rw [h.store i]

theorem erase (h : Mirrors ⟨s, due, given⟩ st) (hs : s.erase inputs i key = some s') :
    ∃ past st', Run StoreSwarm.step st past st' ∧ Mirrors ⟨s', due, given⟩ st' := by
  unfold Simulator.erase at hs
  split at hs
  · cases hs
    exact ⟨[], st, .start, h⟩
  · obtain ⟨clock, _, hs⟩ := Option.bind_eq_some_iff.1 hs
    cases hs
    have hstep : st.step (.delete (idOf i).toList key clock) = some _ := rfl
    obtain ⟨past, hrun⟩ := run_one hstep
    refine ⟨past, _, hrun, h.update (st.store_wrote _ _ _) rfl rfl ?_ rfl⟩
    rw [h.store i]

theorem hear (h : Mirrors ⟨s, due, given⟩ st) (hm : m ∈ given) (hd : m.body.digest? = some d)
    (clock : ℚ) (membership : List PeerRecord) (i : ℕ) : ∃ past st',
    Run StoreSwarm.step st past st' ∧
      Mirrors ⟨s.setNode i ((s.nodes i).apply clock membership d), due, given⟩ st' := by
  obtain ⟨k, hk⟩ := List.mem_iff_getElem?.1 (h.given m hm d hd)
  have hstep : st.step (.applyDigest (idOf i).toList k) =
      some (st.given (idOf i).toList ((st.store (idOf i).toList).applyDigest d).store
        (d.items.map (fun p => (p.1, Entry.fromDict p.2)))) := by
    simp only [StoreSwarm.step, hk, Option.bind_eq_bind, Option.bind_some]
  obtain ⟨past, hrun⟩ := run_one hstep
  refine ⟨past, _, hrun, h.update (st.store_given _ _ _) rfl rfl ?_ rfl⟩
  rw [h.store i]
  rfl

theorem enqueue (h : Mirrors ⟨s, due, given⟩ st) (random : PyRandom ρ) (src dst : String)
    (hm : ∀ d, m.body.digest? = some d → d ∈ st.digests) :
    Mirrors ⟨s.enqueue random src dst m, due, given⟩ st := by
  have hnodes := (s.nodes_enqueue random src dst m).1
  have hqueue : ∀ q ∈ (s.enqueue random src dst m).network.queue,
      q ∈ s.network.queue ∨ q.message = m := by
    intro q hq
    rcases s.enqueue_cases random src dst m with hs | ⟨_, hs⟩ | ⟨_, _, _, _, hs⟩
    · rw [hs] at hq
      exact .inl hq
    · rw [hs] at hq
      exact .inl hq
    · rw [hs] at hq
      rcases List.mem_append.1 hq with hq | hq
      · exact .inl hq
      · rw [List.mem_singleton.1 hq]
        exact .inr rfl
  refine ⟨fun i => (h.store i).trans (congrArg SwarmNode.store (congrFun hnodes i).symm), ?_,
    h.given⟩
  intro q hq d hd
  rcases List.mem_append.1 hq with hq | hq
  · rcases hqueue q hq with hq | rfl
    · exact h.queued q (List.mem_append_left _ hq) d hd
    · exact hm d hd
  · exact h.queued q (List.mem_append_right _ hq) d hd

theorem post (h : Mirrors ⟨s, due, given⟩ st) (random : PyRandom ρ) (inputs : Inputs)
    (hbody : s.Honest i body) (dsts : List String) : ∃ past st', Run StoreSwarm.step st past st' ∧
      Mirrors ⟨s.post random inputs i dsts body, due, given⟩ st' := by
  have hsend : ∀ {st'}, Mirrors ⟨s, due, given⟩ st' →
      (∀ d, body.digest? = some d → d ∈ st'.digests) →
      Mirrors ⟨s.post random inputs i dsts body, due, given⟩ st' := by
    intro st' h' hd
    refine s.post_induction random inputs (I := fun t => Mirrors ⟨t, due, given⟩ st') i dsts body
      ⟨h'.store, h'.queued, h'.given⟩ (fun t _ ht dst => ht.enqueue random _ _ hd)
  cases hd : body.digest? with
  | none => exact ⟨[], st, .start, hsend h (fun d hd' => by rw [hd] at hd'; cases hd')⟩
  | some d =>
    have hstep : st.step (.digest (idOf i).toList) =
        some { st with digests := st.digests ++ [(st.store (idOf i).toList).digest] } := rfl
    obtain ⟨past, hrun⟩ := run_one hstep
    refine ⟨past, _, hrun, hsend ⟨h.store, ?_, ?_⟩ (fun d' hd' => ?_)⟩
    · exact fun q hq d' hd' => List.mem_append_left _ (h.queued q hq d' hd')
    · exact fun m hm d' hd' => List.mem_append_left _ (h.given m hm d' hd')
    · rw [hbody d' hd', ← h.store i]
      exact List.mem_append_right _ List.mem_cons_self

end Mirrors

namespace Simulator

variable (random : PyRandom ρ)

theorem taken_subset (s : Simulator ρ α) :
    (s.taken random).1.network.queue ++ (s.taken random).2 ⊆ s.network.queue := by
  intro q hq
  rcases List.mem_append.1 hq with hq | hq
  · exact List.mem_of_mem_filter hq
  · have hpicked := (List.mem_insertionSort _).1 hq
    obtain ⟨i, _, hi⟩ := List.mem_filterMap.1 hpicked
    exact List.mem_of_mem_filter (List.mem_of_getElem? hi)

end Simulator

namespace Mirrors

theorem act {random : PyRandom ρ} {s s' : Simulator ρ α} {due : List (Queued α)}
    {given : List (SimMessage α)} {st : StoreSwarm ℚ Str Str (Stored α)}
    (h : Mirrors ⟨s, due, given⟩ st) (hmove : LocalMove random inputs s s') :
    ∃ past st', Run StoreSwarm.step st past st' ∧ Mirrors ⟨s', due, given⟩ st' := by
  cases hmove with
  | drift hd =>
    refine ⟨[], st, .start, h.same (fun i => by rw [hd.nodes]) ?_ (fun m hm => .inl hm)⟩
    rw [hd.network]
    exact fun x hx => hx
  | node hn => exact ⟨[], st, .start, h.setNode hn.store⟩
  | write _ hs => exact h.write hs
  | erase _ hs => exact h.erase hs
  | post hbody => exact h.post random inputs hbody _

theorem move {random : PyRandom ρ} {w w' : Midway ρ α} {st : StoreSwarm ℚ Str Str (Stored α)}
    (h : Mirrors w st) (hmove : Move random inputs w w') :
    ∃ past st', Run StoreSwarm.step st past st' ∧ Mirrors w' st' := by
  have hsame : ∀ {w' : Midway ρ α}, Mirrors w' st → ∃ past st',
      Run StoreSwarm.step st past st' ∧ Mirrors w' st' := fun h' => ⟨[], st, .start, h'⟩
  cases hmove with
  | act hlocal => exact h.act hlocal
  | advance => exact hsame (h.rest .advance)
  | opened => exact hsame (h.rest .opened)
  | cutOrHeal => exact hsame (h.rest (.cutOrHeal random))
  | crash => exact hsame (h.rest (.crash random))
  | restart => exact hsame (h.rest (.restart random inputs))
  | calm => exact hsame (h.rest .calm)
  | @take s given =>
    refine hsame (h.same (fun i => rfl) ?_ (fun m hm => .inl hm))
    rw [List.append_nil]
    exact s.taken_subset random
  | @hand i s item due given hi =>
    refine hsame (h.same (fun i => rfl) ?_ (fun m hm => ?_))
    · intro x hx
      rcases List.mem_append.1 hx with hx | hx
      · exact List.mem_append_left _ hx
      · exact List.mem_append_right _ (List.mem_cons_of_mem _ hx)
    · rcases List.mem_cons.1 hm with rfl | hm
      · exact .inr ⟨item, List.mem_append_right _ List.mem_cons_self, rfl⟩
      · exact .inl hm
  | strand hi =>
    refine hsame (h.same (fun i => rfl) (fun x hx => ?_) (fun m hm => .inl hm))
    rcases List.mem_append.1 hx with hx | hx
    · exact List.mem_append_left _ hx
    · exact List.mem_append_right _ (List.mem_cons_of_mem _ hx)
  | remember hm => exact hsame (h.setNode rfl)
  | hear hm hd _ => exact h.hear hm hd _ _ _

theorem moves {random : PyRandom ρ} {w w' : Midway ρ α} {st : StoreSwarm ℚ Str Str (Stored α)}
    (h : Mirrors w st) (hmoves : Moves random inputs w w') :
    ∃ past st', Run StoreSwarm.step st past st' ∧ Mirrors w' st' := by
  induction hmoves with
  | refl => exact ⟨[], st, .start, h⟩
  | tail _ hmove ih =>
    obtain ⟨past, st', hrun, h'⟩ := ih
    obtain ⟨past', st'', hrun', h''⟩ := h'.move hmove
    exact ⟨past' ++ past, st'', hrun.append hrun', h''⟩

end Mirrors

namespace Simulator

/-- The stores of every simulation are those of a run of a swarm of stores over a network that may
lose, repeat and reorder digests, and every digest in the queue was built in that run. So a version
says which key and which entry it is of, on all nodes. -/
theorem simulation_refines_store_swarm [PyNone α] {random : PyRandom ρ} {inputs : Inputs}
    {handler : String → Task α → HandlerOutcome α} {cfg : SimConfig} {calls : List (SimCall α)}
    {s : Simulator ρ α} (h : driven random inputs handler cfg calls = some s) :
    (∃ past st, Run StoreSwarm.step StoreSwarm.init past st ∧
      (∀ i, st.store (idOf i).toList = (s.nodes i).store) ∧
      ∀ q ∈ s.network.queue, ∀ d, q.message.body.digest? = some d → d ∈ st.digests) ∧
    ∀ i j k l e f, (s.nodes i).store.data.get k = some e → (s.nodes j).store.data.get l = some f →
      e.version = f.version → k = l ∧ e = f := by
  obtain ⟨given, hmoves⟩ := moves_driven random inputs handler h
  obtain ⟨past, st, hrun, hmirrors⟩ := (Mirrors.init random cfg).moves hmoves
  refine ⟨⟨past, st, hrun, hmirrors.store, fun q hq => ?_⟩, ?_⟩
  · exact hmirrors.queued q (List.mem_append_left _ hq)
  · intro i j k l e f he hf hv
    have hprov := (StoreSwarm.Traced.of_run hrun).prov
    rw [← hmirrors.store] at he hf
    have heq := hprov.eq_of_version (hprov.held _ k e he) (hprov.held _ l f hf) hv
    exact ⟨congrArg Prod.fst heq, congrArg Prod.snd heq⟩

/-- Two nodes write the same key and gossip, and both end up with the later write. -/
theorem simulation_refines_store_swarm_of_twoWrites : ∃ s : Simulator ℕ (Option ℕ),
    writesAt [1, 2] 'a' = some s ∧ (s.nodes 0).store.data.get ['k'] =
      (s.nodes 1).store.data.get ['k'] ∧ (s.nodes 0).store.get ['k'] .none = .plain (some 1) ∧
    ∃ past st, Run StoreSwarm.step StoreSwarm.init past st ∧
      st.store ['n', '0'] = (s.nodes 0).store := by
  have hrun : (writesAt [1, 2] 'a').map (fun s => (decide ((s.nodes 0).store.data.get ['k'] =
      (s.nodes 1).store.data.get ['k']), (s.nodes 0).store.get ['k'] .none)) =
        some (true, .plain (some 1)) := by decide +kernel
  obtain ⟨s, hs, he⟩ := Option.map_eq_some_iff.1 hrun
  simp only [Prod.mk.injEq, decide_eq_true_eq] at he
  obtain ⟨⟨past, st, hst, hstore, _⟩, _⟩ := simulation_refines_store_swarm hs
  exact ⟨s, hs, he.1, he.2, past, st, hst, hstore 0⟩

end Simulator

end Simulation

end Suprime
