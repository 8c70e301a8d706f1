import Suprime.SimAccounts

namespace Suprime
set_option autoImplicit true

namespace DistributedStore

variable {T ν κ : Type} {α : Type u} [LinearOrder T] [LinearOrder ν] [DecidableEq κ]

/-- The store has an entry for the key that is at least as new as a version. -/
def Covers (s : DistributedStore T ν κ α) (k : κ) (v : Version T ν) : Prop :=
  ∃ e, s.data.get k = some e ∧ v ≤ e.version

theorem Covers.merge {s : DistributedStore T ν κ α} (h : s.Covers k v)
    (l : List (κ × Entry T ν α)) : (s.merge l).store.Covers k v := by
  obtain ⟨e, he, hle⟩ := h
  obtain ⟨e', he', hle'⟩ := get_merge_mono he l
  exact ⟨e', he', hle.trans hle'⟩

theorem covers_merge (s : DistributedStore T ν κ α) {l : List (κ × Entry T ν α)}
    (h : (k, e) ∈ l) : (s.merge l).store.Covers k e.version := by
  exact (isNewest_merge s.isNewest_self l k).le (.inr h)

end DistributedStore

namespace Simulation

variable {ρ α : Type}

/-- No store loses anything. -/
def Simulator.Gains (s s' : Simulator ρ α) : Prop :=
  ∀ i k v, (s.nodes i).store.Covers k v → (s'.nodes i).store.Covers k v

/-- What nodes did by themselves, and without a write: the stores and what was seen are the same,
and each message that was sent is in the queue, carries the store of its sender if any, and is due
at once on a network without latency. -/
structure Acted (inputs : Inputs) (s s' : Simulator ρ α) : Prop where
  built : s'.built = s.built
  clock : s'.clock = s.clock
  cfg : s'.cfg = s.cfg
  maxLatency : s'.network.maxLatency = s.network.maxLatency
  node : ∀ i, (s'.nodes i).id = (s.nodes i).id ∧ (s'.nodes i).address = (s.nodes i).address ∧
    (s'.nodes i).store = (s.nodes i).store ∧ (s'.nodes i).seen = (s.nodes i).seen
  messageIds : s.messageIds ≤ s'.messageIds
  sends : ∃ items events, s'.network.queue = s.network.queue ++ items ∧
    s'.history = s.history ++ events ∧
    (∀ item ∈ items, (s.network.maxLatency = 0 → item.deliverAt = s.clock) ∧
      (∃ k ≥ s.messageIds, item.message.id = inputs.messageId k) ∧
      ∃ i, item.message.src = (s.nodes i).id ∧ s.Honest i item.message.body) ∧
    ∀ src dst type, .send src dst type ∈ events → ∃ item ∈ items, item.Is src dst type

namespace Acted

variable {inputs : Inputs} {s s' s'' : Simulator ρ α}

theorem refl (s : Simulator ρ α) : Acted inputs s s where
  built := rfl
  clock := rfl
  cfg := rfl
  maxLatency := rfl
  node _ := ⟨rfl, rfl, rfl, rfl⟩
  messageIds := le_rfl
  sends := ⟨[], [], (List.append_nil _).symm, (List.append_nil _).symm,
    fun _ h => (by cases h), fun _ _ _ h => (by cases h)⟩

theorem trans (h : Acted inputs s s') (h' : Acted inputs s' s'') : Acted inputs s s'' where
  built := h'.built.trans h.built
  clock := h'.clock.trans h.clock
  cfg := h'.cfg.trans h.cfg
  maxLatency := h'.maxLatency.trans h.maxLatency
  node i := by
    obtain ⟨hid, haddress, hstore, hseen⟩ := h.node i
    obtain ⟨hid', haddress', hstore', hseen'⟩ := h'.node i
    exact ⟨hid'.trans hid, haddress'.trans haddress, hstore'.trans hstore, hseen'.trans hseen⟩
  messageIds := h.messageIds.trans h'.messageIds
  sends := by
    obtain ⟨items, events, hqueue, hhistory, hitems, hevents⟩ := h.sends
    obtain ⟨items', events', hqueue', hhistory', hitems', hevents'⟩ := h'.sends
    refine ⟨items ++ items', events ++ events', ?_, ?_, ?_, ?_⟩
    · rw [hqueue', hqueue, List.append_assoc]
    · rw [hhistory', hhistory, List.append_assoc]
    · intro item hitem
      rcases List.mem_append.1 hitem with hitem | hitem
      · exact hitems item hitem
      · obtain ⟨hdue, ⟨k, hk, hid⟩, i, hsrc, hhonest⟩ := hitems' item hitem
        refine ⟨fun hzero => ?_, ⟨k, h.messageIds.trans hk, hid⟩, i, ?_, fun d hd => ?_⟩
        · rw [hdue (h.maxLatency.trans hzero), h.clock]
        · rw [hsrc, (h.node i).1]
        · rw [hhonest d hd, (h.node i).2.2.1]
    · intro src dst type hmem
      rcases List.mem_append.1 hmem with hmem | hmem
      · obtain ⟨item, hitem, his⟩ := hevents src dst type hmem
        exact ⟨item, List.mem_append_left _ hitem, his⟩
      · obtain ⟨item, hitem, his⟩ := hevents' src dst type hmem
        exact ⟨item, List.mem_append_right _ hitem, his⟩

theorem silent (hbuilt : s'.built = s.built) (hclock : s'.clock = s.clock) (hcfg : s'.cfg = s.cfg)
    (hnetwork : s'.network = s.network) (hhistory : s'.history = s.history)
    (hids : s.messageIds ≤ s'.messageIds) (hnode : ∀ i, (s'.nodes i).id = (s.nodes i).id ∧
      (s'.nodes i).address = (s.nodes i).address ∧ (s'.nodes i).store = (s.nodes i).store ∧
      (s'.nodes i).seen = (s.nodes i).seen) : Acted inputs s s' where
  built := hbuilt
  clock := hclock
  cfg := hcfg
  maxLatency := by rw [hnetwork]
  node := hnode
  messageIds := hids
  sends := by
    refine ⟨[], [], ?_, ?_, fun _ h => (by cases h), fun _ _ _ h => (by cases h)⟩
    · rw [hnetwork, List.append_nil]
    · rw [hhistory, List.append_nil]

theorem setNode (h : (s.nodes i).Keeps n) : Acted inputs s (s.setNode i n) := by
  refine silent rfl rfl rfl rfl rfl le_rfl (fun j => ?_)
  by_cases hji : j = i
  · subst hji
    simp only [Simulator.setNode, Function.update_self]
    exact ⟨h.id, h.address, h.store, h.seen⟩
  · simp only [Simulator.setNode, Function.update_of_ne hji, and_self]

theorem enqueue {t : Simulator ρ α} (h : Acted inputs s t) (random : PyRandom ρ)
    (hk : s.messageIds ≤ k) (hm : m.id = inputs.messageId k) (hsrc : m.src = (s.nodes i).id)
    (hbody : s.Honest i m.body) (src dst : String) :
    Acted inputs s (t.enqueue random src dst m) := by
  obtain ⟨items, events, hqueue, hhistory, hitems, hevents⟩ := h.sends
  have hquiet : ∀ {u : Simulator ρ α} {e : SimEvent}, (∀ a b c, e ≠ .send a b c) →
      u.built = t.built → u.clock = t.clock → u.cfg = t.cfg →
      u.network.maxLatency = t.network.maxLatency → u.nodes = t.nodes →
      u.messageIds = t.messageIds → u.network.queue = t.network.queue →
      u.history = t.history ++ [e] → Acted inputs s u := by
    intro u e he hbuilt hclock hcfg hlatency hnodes hids hsame hlog
    refine ⟨hbuilt.trans h.built, hclock.trans h.clock, hcfg.trans h.cfg,
      hlatency.trans h.maxLatency, fun i => ?_, ?_, items, events ++ [e], ?_, ?_, hitems,
      fun a b c hmem => ?_⟩
    · rw [hnodes]
      exact h.node i
    · rw [hids]
      exact h.messageIds
    · rw [hsame, hqueue]
    · rw [hlog, hhistory, List.append_assoc]
    · rcases List.mem_append.1 hmem with hmem | hmem
      · exact hevents a b c hmem
      · exact absurd (List.mem_singleton.1 hmem).symm (he a b c)
  rcases t.enqueue_cases random src dst m with hs | ⟨rng, hs⟩ | ⟨rng, deliverAt, _, hdue, hs⟩
  · rw [hs]
    exact hquiet (fun _ _ _ he => by cases he) rfl rfl rfl rfl rfl rfl rfl rfl
  · rw [hs]
    exact hquiet (fun _ _ _ he => by cases he) rfl rfl rfl rfl rfl rfl rfl rfl
  · rw [hs]
    refine ⟨h.built, h.clock, h.cfg, h.maxLatency, h.node, h.messageIds,
      items ++ [⟨deliverAt, t.network.seq + 1, dst, m⟩],
      events ++ [.send m.src dst m.body.type], ?_, ?_, fun item hitem => ?_, fun a b c hmem => ?_⟩
    · rw [← List.append_assoc, ← hqueue]
      rfl
    · rw [← List.append_assoc, ← hhistory]
      rfl
    · rcases List.mem_append.1 hitem with hitem | hitem
      · exact hitems item hitem
      · rw [List.mem_singleton.1 hitem]
        refine ⟨fun hzero => ?_, ⟨k, hk, hm⟩, i, hsrc, hbody⟩
        exact (hdue (h.maxLatency.trans hzero)).trans h.clock
    · rcases List.mem_append.1 hmem with hmem | hmem
      · obtain ⟨item, hitem, his⟩ := hevents a b c hmem
        exact ⟨item, List.mem_append_left _ hitem, his⟩
      · cases List.mem_singleton.1 hmem
        exact ⟨_, List.mem_append_right _ List.mem_cons_self, rfl, rfl, rfl⟩

theorem post (random : PyRandom ρ) (hbody : s.Honest i body) (dsts : List String) :
    Acted inputs s (s.post random inputs i dsts body) := by
  refine s.post_induction random inputs (I := Acted inputs s) i dsts body ?_
    (fun t _ ht dst => ht.enqueue random le_rfl rfl rfl hbody _ _)
  exact silent rfl rfl rfl rfl rfl (Nat.le_succ _) (fun _ => ⟨rfl, rfl, rfl, rfl⟩)

end Acted

namespace LocalMove

variable {random : PyRandom ρ} {inputs : Inputs} {s s' : Simulator ρ α}

theorem versionReadings_post (s : Simulator ρ α) (i : ℕ) (dsts : List String) (body : Body α) :
    (s.post random inputs i dsts body).versionReadings = s.versionReadings := by
  refine s.post_induction random inputs (I := fun t => t.versionReadings = s.versionReadings) i
    dsts body rfl (fun t _ ht dst => ?_)
  rcases t.enqueue_cases random (t.nodes i).address dst
    ⟨inputs.messageId s.messageIds, (s.nodes i).id, body⟩ with hs | ⟨_, hs⟩ | ⟨_, _, _, _, hs⟩ <;>
  · rw [hs]
    exact ht

theorem versionReadings (h : LocalMove random inputs s s') :
    s.versionReadings ≤ s'.versionReadings ∧
      (s'.versionReadings = s.versionReadings → Acted inputs s s') := by
  have hwrote : ∀ i store, s.versionReadings ≤ (s.wrote i store).versionReadings ∧
      ((s.wrote i store).versionReadings = s.versionReadings → Acted inputs s (s.wrote i store)) :=
    fun i store => ⟨Nat.le_succ _, fun hsame => absurd hsame (Nat.succ_ne_self _)⟩
  cases h with
  | drift hd =>
    refine ⟨hd.versionReadings.ge, fun _ => ?_⟩
    refine .silent hd.built hd.clock hd.cfg hd.network hd.history hd.messageIds.ge (fun i => ?_)
    rw [hd.nodes]
    exact ⟨rfl, rfl, rfl, rfl⟩
  | node hn => exact ⟨le_rfl, fun _ => .setNode hn⟩
  | write _ hs =>
    obtain ⟨clock, _, hs⟩ := Option.bind_eq_some_iff.1 hs
    cases hs
    exact hwrote _ _
  | erase _ hs =>
    unfold Simulator.erase at hs
    split at hs
    · cases hs
      exact ⟨le_rfl, fun _ => .refl s⟩
    · obtain ⟨clock, _, hs⟩ := Option.bind_eq_some_iff.1 hs
      cases hs
      exact hwrote _ _
  | post hbody => exact ⟨(versionReadings_post _ _ _ _).ge, fun _ => .post random hbody _⟩

end LocalMove

theorem LocalMoves.acted {random : PyRandom ρ} {inputs : Inputs} {s s' : Simulator ρ α}
    (h : LocalMoves random inputs s s') : s.versionReadings ≤ s'.versionReadings ∧
      (s'.versionReadings = s.versionReadings → Acted inputs s s') := by
  induction h with
  | refl => exact ⟨le_rfl, fun _ => .refl s⟩
  | tail _ hmove ih =>
    obtain ⟨hle, hacted⟩ := ih
    obtain ⟨hle', hacted'⟩ := hmove.versionReadings
    refine ⟨hle.trans hle', fun hsame => ?_⟩
    have hmid := le_antisymm (hsame ▸ hle') hle
    exact (hacted hmid).trans (hacted' (hsame.trans hmid.symm))

/-- A digest is on its way, or has been delivered. -/
def Midway.Carries (w : Midway ρ α) (d : StoreDigest α) : Prop :=
  (∃ q ∈ w.sim.network.queue ++ w.due, q.message.body.digest? = some d) ∨
    ∃ m ∈ w.given, m.body.digest? = some d

/-- The store of a node is as before, or a digest that it was given has been merged into it. -/
def Midway.Merges (w w' : Midway ρ α) (i : ℕ) : Prop :=
  (w'.sim.nodes i).store = (w.sim.nodes i).store ∨ ∃ d, w.Carries d ∧
    (w'.sim.nodes i).store = ((w.sim.nodes i).store.merge (StoreSwarm.pairsOf d)).store

/-- What a move without a write can do to stores and digests. -/
structure Quiet (w w' : Midway ρ α) : Prop where
  carries : ∀ d, w'.Carries d → w.Carries d ∨ ∃ i, d = (w.sim.nodes i).store.digest
  merges : ∀ i, w.Merges w' i
  maxLatency : w.sim.network.maxLatency = 0 → w'.sim.network.maxLatency = 0

namespace Quiet

variable {s s' : Simulator ρ α} {due due' : List (Queued α)} {given given' : List (SimMessage α)}

theorem same (hstore : ∀ i, (s'.nodes i).store = (s.nodes i).store)
    (hqueue : s'.network.queue ++ due' ⊆ s.network.queue ++ due)
    (hgiven : ∀ m ∈ given', m ∈ given ∨ ∃ q ∈ s.network.queue ++ due, q.message = m)
    (hlatency : s.network.maxLatency = 0 → s'.network.maxLatency = 0) :
    Quiet ⟨s, due, given⟩ ⟨s', due', given'⟩ where
  carries d hd := by
    rcases hd with ⟨q, hq, hd⟩ | ⟨m, hm, hd⟩
    · exact .inl (.inl ⟨q, hqueue hq, hd⟩)
    · rcases hgiven m hm with hm | ⟨q, hq, rfl⟩
      · exact .inl (.inr ⟨m, hm, hd⟩)
      · exact .inl (.inl ⟨q, hq, hd⟩)
  merges i := .inl (hstore i)
  maxLatency := hlatency

theorem rest (h : s.Rests s') : Quiet ⟨s, due, given⟩ ⟨s', due, given⟩ := by
  apply same
  · intro i
    rw [h.nodes]
  · rw [h.queue]
    exact fun x hx => hx
  · exact fun m hm => .inl hm
  · exact h.maxLatency

theorem acted (h : Acted inputs s s') : Quiet ⟨s, due, given⟩ ⟨s', due, given⟩ where
  carries d hd := by
    obtain ⟨items, _, hqueue, _, hitems, _⟩ := h.sends
    rcases hd with ⟨q, hq, hd⟩ | hd
    · dsimp only at hq
      rw [hqueue] at hq
      rcases List.mem_append.1 hq with hq | hq
      · rcases List.mem_append.1 hq with hq | hq
        · exact .inl (.inl ⟨q, List.mem_append_left _ hq, hd⟩)
        · obtain ⟨_, _, i, _, hhonest⟩ := hitems q hq
          exact .inr ⟨i, hhonest d hd⟩
      · exact .inl (.inl ⟨q, List.mem_append_right _ hq, hd⟩)
    · exact .inl (.inr hd)
  merges i := .inl (h.node i).2.2.1
  maxLatency hzero := h.maxLatency.trans hzero

end Quiet

namespace Move

variable {random : PyRandom ρ} {inputs : Inputs} {w w' : Midway ρ α}

theorem quiet (h : Move random inputs w w') :
    w.sim.versionReadings ≤ w'.sim.versionReadings ∧
      (w'.sim.versionReadings = w.sim.versionReadings → Quiet w w') := by
  have hrest : ∀ {s s' : Simulator ρ α} {due given}, s.Rests s' →
      s.versionReadings ≤ s'.versionReadings ∧ (s'.versionReadings = s.versionReadings →
        Quiet ⟨s, due, given⟩ ⟨s', due, given⟩) := by
    intro s s' due given hs
    exact ⟨hs.versionReadings.ge, fun _ => .rest hs⟩
  cases h with
  | act hlocal => exact hlocal.versionReadings.imp id (fun hacted hsame => .acted (hacted hsame))
  | advance => exact hrest .advance
  | opened => exact hrest .opened
  | cutOrHeal => exact hrest (.cutOrHeal random)
  | crash => exact hrest (.crash random)
  | restart => exact hrest (.restart random inputs)
  | calm => exact hrest .calm
  | @take s given =>
    refine ⟨le_rfl, fun _ => .same (fun i => rfl) ?_ (fun m hm => .inl hm) id⟩
    rw [List.append_nil]
    exact s.taken_subset random
  | @hand i s item due given hi =>
    refine ⟨le_rfl, fun _ => .same (fun i => rfl) ?_ ?_ id⟩
    · intro x hx
      rcases List.mem_append.1 hx with hx | hx
      · exact List.mem_append_left _ hx
      · exact List.mem_append_right _ (List.mem_cons_of_mem _ hx)
    · intro m hm
      rcases List.mem_cons.1 hm with rfl | hm
      · exact .inr ⟨item, List.mem_append_right _ List.mem_cons_self, rfl⟩
      · exact .inl hm
  | strand hi =>
    refine ⟨le_rfl, fun _ => .same (fun i => rfl) ?_ (fun m hm => .inl hm) id⟩
    intro x hx
    rcases List.mem_append.1 hx with hx | hx
    · exact List.mem_append_left _ hx
    · exact List.mem_append_right _ (List.mem_cons_of_mem _ hx)
  | @remember _ _ s due i hm =>
    refine ⟨le_rfl, fun _ => .same (fun j => ?_) (fun x hx => hx) (fun m hm => .inl hm) id⟩
    by_cases hji : j = i
    · subst hji
      simp only [Simulator.setNode, Function.update_self]
      rfl
    · simp only [Simulator.setNode, Function.update_of_ne hji]
  | @hear given m d i s due membership hm hd hi =>
    refine ⟨le_rfl, fun _ => ⟨fun d hd => .inl hd, fun j => ?_, id⟩⟩
    by_cases hji : j = i
    · subst hji
      refine .inr ⟨d, .inr ⟨m, hm, hd⟩, ?_⟩
      simp only [Simulator.setNode, Function.update_self]
      rfl
    · refine .inl ?_
      simp only [Simulator.setNode, Function.update_of_ne hji]

end Move

namespace Moves

variable {random : PyRandom ρ} {inputs : Inputs} {w w' : Midway ρ α}

theorem versionReadings (h : Moves random inputs w w') :
    w.sim.versionReadings ≤ w'.sim.versionReadings := by
  induction h with
  | refl => exact le_rfl
  | tail _ hmove ih => exact ih.trans hmove.quiet.1

theorem of_quiet {P : Midway ρ α → Prop} (hP : ∀ w w', Quiet w w' → P w → P w')
    (h : Moves random inputs w w') (hsame : w'.sim.versionReadings = w.sim.versionReadings)
    (hw : P w) : P w' := by
  induction h with
  | refl => exact hw
  | @tail u v hmoves hmove ih =>
    have hle := Moves.versionReadings hmoves
    have hle' := hmove.quiet.1
    have hu : u.sim.versionReadings = w.sim.versionReadings := le_antisymm (hsame ▸ hle') hle
    exact hP u v (hmove.quiet.2 (hsame.trans hu.symm)) (ih hu)

theorem gains (h : Moves random inputs w w')
    (hsame : w'.sim.versionReadings = w.sim.versionReadings) : w.sim.Gains w'.sim := by
  apply h.of_quiet (P := fun u => w.sim.Gains u.sim) _ hsame (fun _ _ _ hc => hc)
  intro u v hquiet hgains i k x hc
  have hu := hgains i k x hc
  rcases hquiet.merges i with hs | ⟨d, _, hs⟩ <;> rw [hs]
  · exact hu
  · exact hu.merge _

theorem maxLatency (h : Moves random inputs w w')
    (hsame : w'.sim.versionReadings = w.sim.versionReadings)
    (hzero : w.sim.network.maxLatency = 0) : w'.sim.network.maxLatency = 0 := by
  apply h.of_quiet (P := fun u => u.sim.network.maxLatency = 0) _ hsame hzero
  exact fun u v hquiet => hquiet.maxLatency

end Moves

/-- All entries in stores and digests are among some. -/
structure Within (W : Set (Str × Entry ℚ Str (Stored α))) (w : Midway ρ α) : Prop where
  held : ∀ i k e, (w.sim.nodes i).store.data.get k = some e → (k, e) ∈ W
  carried : ∀ d, w.Carries d → ∀ p ∈ StoreSwarm.pairsOf d, p ∈ W

theorem Within.moves {random : PyRandom ρ} {inputs : Inputs} {w w' : Midway ρ α}
    {W : Set (Str × Entry ℚ Str (Stored α))} (h : Within W w) (hmoves : Moves random inputs w w')
    (hsame : w'.sim.versionReadings = w.sim.versionReadings) : Within W w' := by
  apply hmoves.of_quiet (P := Within W) _ hsame h
  intro u v hquiet hu
  constructor
  · intro i k e he
    rcases hquiet.merges i with hs | ⟨d, hd, hs⟩ <;> rw [hs] at he
    · exact hu.held i k e he
    · rcases DistributedStore.get_merge_mem he with he | he
      · exact hu.held i k e he
      · exact hu.carried d hd _ he
  · intro d hd p hp
    rcases hquiet.carries d hd with hd | ⟨i, rfl⟩
    · exact hu.carried d hd p hp
    · rw [StoreSwarm.pairsOf_digest] at hp
      exact hu.held i p.1 p.2 (Dict.mem_items.1 hp)

end Simulation

end Suprime
