import Suprime.StoreLockstep
import Suprime.Simulation

namespace Suprime
set_option autoImplicit true

namespace Simulation

variable {ρ α : Type} {R : ℚ → ℚ → Prop} {J : String → String → Prop}

theorem rel_picked {P : β → γ → Prop} {l : List β} {l' : List γ} (h : List.Forall₂ P l l')
    (positions : List ℕ) : List.Forall₂ P (picked l positions) (picked l' positions) := by
  have hpositions : List.Forall₂ Eq positions positions := List.forall₂_refl positions
  apply List.rel_filterMap _ hpositions
  rintro i j rfl
  exact rel_getElem? h i

/-- Inputs that draw the same claims, ids that repeat alike, and the same enumerations. -/
structure Inputs.Rel (J : String → String → Prop) (inputs inputs' : Inputs) : Prop where
  ids : Relator.BiUnique J
  claimTime : ∀ k, inputs.claimTime k = inputs'.claimTime k
  messageId : ∀ k, J (inputs.messageId k) (inputs'.messageId k)
  order : ∀ k l, inputs.order k l = inputs'.order k l

/-- The readings for versions: `R k` relates what may be compared after `k` of them. -/
structure Readings (R : ℕ → ℚ → ℚ → Prop) (inputs inputs' : Inputs) : Prop where
  same : ∀ k ≤ inputs.time.length, SameOrder (R k)
  nudged : ∀ k, Nudged (R k) (R (k + 1))
  zero : R 0 0 0
  time : ∀ k, Option.Rel (R k) inputs.time[k]? inputs'.time[k]?

/-- Payloads that differ at most in the readings of versions. -/
inductive Body.Rel (R : ℚ → ℚ → Prop) : Body α → Body α → Prop
  | JOIN : Rel R (.JOIN address heartbeat) (.JOIN address heartbeat)
  | WELCOME : Dict.Rel (EntryData.Rel R) store store' →
      Rel R (.WELCOME membership store) (.WELCOME membership store')
  | GOSSIP : Dict.Rel (EntryData.Rel R) store store' →
      Rel R (.GOSSIP membership store) (.GOSSIP membership store')
  | PING : Rel R (.PING subject ackTo ackAddr) (.PING subject ackTo ackAddr)
  | PING_REQ : Rel R (.PING_REQ subject subjectAddr ackTo ackAddr)
      (.PING_REQ subject subjectAddr ackTo ackAddr)
  | ACK : Rel R (.ACK subject) (.ACK subject)
  | app {t : AppType} : Rel R (.app t payload) (.app t payload)

theorem Body.Rel.type {b b' : Body α} (h : Body.Rel R b b') : b.type = b'.type := by
  cases h <;> rfl

theorem Body.Rel.imp {R' : ℚ → ℚ → Prop} {b b' : Body α} (hR : ∀ {a b}, R a b → R' a b)
    (h : Body.Rel R b b') : Body.Rel R' b b' := by
  cases h with
  | JOIN => exact .JOIN
  | WELCOME hd => exact .WELCOME (hd.imp (fun _ _ he => he.imp hR))
  | GOSSIP hd => exact .GOSSIP (hd.imp (fun _ _ he => he.imp hR))
  | PING => exact .PING
  | PING_REQ => exact .PING_REQ
  | ACK => exact .ACK
  | app => exact .app

structure SimMessage.Rel (R : ℚ → ℚ → Prop) (J : String → String → Prop)
    (m m' : SimMessage α) : Prop where
  id : J m.id m'.id
  src : m.src = m'.src
  body : Body.Rel R m.body m'.body

structure Queued.Rel (R : ℚ → ℚ → Prop) (J : String → String → Prop) (x x' : Queued α) :
    Prop where
  deliverAt : x.deliverAt = x'.deliverAt
  seq : x.seq = x'.seq
  dst : x.dst = x'.dst
  message : SimMessage.Rel R J x.message x'.message

theorem Queued.Rel.imp {R' : ℚ → ℚ → Prop} {x x' : Queued α} (hR : ∀ {a b}, R a b → R' a b)
    (h : Queued.Rel R J x x') : Queued.Rel R' J x x' :=
  ⟨h.deliverAt, h.seq, h.dst, h.message.id, h.message.src, h.message.body.imp hR⟩

/-- Nodes that are the same but for readings in their stores and for the ids they remember. -/
inductive SwarmNode.Rel (R : ℚ → ℚ → Prop) (J : String → String → Prop) (n : SwarmNode ρ α) :
    SwarmNode ρ α → Prop
  | mk {st : TaskStore α} {ids : List String} : DistributedStore.Rel R n.store st →
      List.Forall₂ J n.seen ids → Rel R J n { n with store := st, seen := ids }

/-- Simulators that took `k` versions and that are the same but for their nodes and their messages,
which are related. -/
inductive Simulator.Rel (R : ℚ → ℚ → Prop) (J : String → String → Prop) (k : ℕ)
    (s : Simulator ρ α) : Simulator ρ α → Prop
  | mk {q : List (Queued α)} {ns : ℕ → SwarmNode ρ α} : s.versionReadings = k →
      List.Forall₂ (Queued.Rel R J) s.network.queue q →
      (∀ i, SwarmNode.Rel R J (s.nodes i) (ns i)) →
      Rel R J k s { s with network := { s.network with queue := q }, nodes := ns }

namespace SwarmNode.Rel

variable {n n' : SwarmNode ρ α}

theorem eq (h : Rel R J n n') : n' = { n with store := n'.store, seen := n'.seen } := by
  obtain ⟨_, _⟩ := h
  rfl

theorem store (h : Rel R J n n') : DistributedStore.Rel R n.store n'.store := by
  obtain ⟨hstore, _⟩ := h
  exact hstore

theorem seen (h : Rel R J n n') : List.Forall₂ J n.seen n'.seen := by
  obtain ⟨_, hseen⟩ := h
  exact hseen

theorem imp {R' : ℚ → ℚ → Prop} (hR : ∀ {a b}, R a b → R' a b) (h : Rel R J n n') :
    Rel R' J n n' := by
  obtain ⟨hstore, hseen⟩ := h
  exact ⟨hstore.imp hR, hseen⟩

theorem remember (h : Rel R J n n') (hid : J x x') : Rel R J (n.remember x) (n'.remember x') := by
  obtain ⟨hstore, hseen⟩ := h
  have hall := List.rel_append hseen (.cons hid .nil)
  have hlen := hall.length_eq
  refine ⟨hstore, ?_⟩
  dsimp only [SwarmNode.remember]
  by_cases hcap : (n.seen ++ [x]).length > n.seenCap
  · rw [if_pos hcap, if_pos (hlen ▸ hcap)]
    rw [← List.drop_one, ← List.drop_one]
    exact List.forall₂_drop 1 hall
  · rw [if_neg hcap, if_neg (hlen ▸ hcap)]
    exact hall

theorem startTick (h : Rel R J n n') (clock : ℚ) :
    Rel R J (n.startTick clock) (n'.startTick clock) := by
  obtain ⟨hstore, hseen⟩ := h
  exact ⟨hstore, hseen⟩

theorem noteChurn (h : Rel R J n n') : Rel R J n.noteChurn n'.noteChurn := by
  obtain ⟨hstore, hseen⟩ := h
  unfold SwarmNode.noteChurn
  dsimp only
  split
  · exact ⟨hstore, hseen⟩
  · exact ⟨hstore, hseen⟩

theorem elect (h : Rel R J n n') (peers : List Peer) :
    Rel R J (n.elect peers) (n'.elect peers) := by
  obtain ⟨hstore, hseen⟩ := h
  exact ⟨hstore, hseen⟩

theorem updateLeader (h : Rel R J n n') : Rel R J n.updateLeader n'.updateLeader := by
  obtain ⟨hstore, hseen⟩ := h
  exact ⟨hstore, hseen⟩

theorem selectTargets (h : Rel R J n n') (random : PyRandom ρ) :
    (n.selectTargets random).1 = (n'.selectTargets random).1 ∧
      Rel R J (n.selectTargets random).2 (n'.selectTargets random).2 := by
  obtain ⟨hstore, hseen⟩ := h
  unfold SwarmNode.selectTargets
  dsimp only
  split
  · exact ⟨rfl, ⟨hstore, hseen⟩⟩
  · exact ⟨rfl, ⟨hstore, hseen⟩⟩

theorem apply (hR : SameOrder R) (h : Rel R J n n') (clock : ℚ) (membership : List PeerRecord)
    (hd : Dict.Rel (EntryData.Rel R) d d') :
    Rel R J (n.apply clock membership d) (n'.apply clock membership d') := by
  obtain ⟨hstore, hseen⟩ := h
  exact ⟨hstore.applyDigest hR hd, hseen⟩

theorem handleAck (h : Rel R J n n') (clock : ℚ) (subject : String) :
    Rel R J (n.handleAck clock subject) (n'.handleAck clock subject) := by
  obtain ⟨hstore, hseen⟩ := h
  exact ⟨hstore, hseen⟩

end SwarmNode.Rel

namespace Simulator.Rel

variable {s s' : Simulator ρ α}

theorem node (h : Rel R J k s s') (i : ℕ) : SwarmNode.Rel R J (s.nodes i) (s'.nodes i) := by
  obtain ⟨hk, hqueue, hnodes⟩ := h
  exact hnodes i

theorem clock (h : Rel R J k s s') : s'.clock = s.clock := by
  obtain ⟨_, _, _⟩ := h
  rfl

theorem readings (h : Rel R J k s s') : s.versionReadings = k ∧ s'.versionReadings = k := by
  obtain ⟨hk, _, _⟩ := h
  exact ⟨hk, hk⟩

theorem built (h : Rel R J k s s') : s'.built = s.built := by
  obtain ⟨_, _, _⟩ := h
  rfl

theorem rng (h : Rel R J k s s') : s'.rng = s.rng := by
  obtain ⟨_, _, _⟩ := h
  rfl

theorem crashed (h : Rel R J k s s') : s'.crashed = s.crashed := by
  obtain ⟨_, _, _⟩ := h
  rfl

theorem history (h : Rel R J k s s') : s'.history = s.history := by
  obtain ⟨_, _, _⟩ := h
  rfl

theorem id (h : Rel R J k s s') (i : ℕ) : (s'.nodes i).id = (s.nodes i).id := by rw [(h.node i).eq]

theorem address (h : Rel R J k s s') (i : ℕ) : (s'.nodes i).address = (s.nodes i).address := by
  rw [(h.node i).eq]

theorem setNode (h : Rel R J k s s') (i : ℕ) (hn : SwarmNode.Rel R J n n') :
    Rel R J k (s.setNode i n) (s'.setNode i n') := by
  obtain ⟨hk, hqueue, hnodes⟩ := h
  exact ⟨hk, hqueue, rel_update hnodes i hn⟩

/-- The same change of everything but the store and the ids of a node. -/
theorem change (h : Rel R J k s s') (i : ℕ) {n : SwarmNode ρ α}
    (hstore : n.store = (s.nodes i).store) (hseen : n.seen = (s.nodes i).seen) :
    Rel R J k (s.setNode i n)
      (s'.setNode i { n with store := (s'.nodes i).store, seen := (s'.nodes i).seen }) :=
  h.setNode i ⟨hstore ▸ (h.node i).store, hseen ▸ (h.node i).seen⟩

theorem log (h : Rel R J k s s') (event : SimEvent) : Rel R J k (s.log event) (s'.log event) := by
  obtain ⟨hk, hqueue, hnodes⟩ := h
  exact ⟨hk, hqueue, hnodes⟩

section
variable (random : PyRandom ρ)

theorem enqueue (h : Rel R J k s s') (hm : SimMessage.Rel R J m m') (src dst : String) :
    Rel R J k (s.enqueue random src dst m) (s'.enqueue random src dst m') := by
  obtain ⟨hk, hqueue, hnodes⟩ := h
  rename_i q ns
  have hreach : ({ s.network with queue := q } : SimNetwork α).canReach src dst =
      s.network.canReach src dst := rfl
  unfold Simulator.enqueue
  dsimp only
  rw [hreach, ← hm.src, ← hm.body.type]
  split
  · exact ⟨hk, hqueue, hnodes⟩
  · split
    · exact ⟨hk, hqueue, hnodes⟩
    · exact ⟨hk, List.rel_append hqueue (.cons ⟨rfl, rfl, rfl, hm⟩ .nil), hnodes⟩

theorem sendAll (h : Rel R J k s s') (hm : SimMessage.Rel R J m m') (i : ℕ)
    (dsts : List String) :
    Rel R J k (s.sendAll random i dsts m) (s'.sendAll random i dsts m') := by
  apply rel_loop _ dsts h
  intro s s' dst h
  rw [h.address]
  exact h.enqueue random hm _ dst

variable {inputs inputs' : Inputs}

theorem post (h : Rel R J k s s') (hin : Inputs.Rel J inputs inputs') (i : ℕ)
    (dsts : List String) (hb : Body.Rel R b b') :
    Rel R J k (s.post random inputs i dsts b) (s'.post random inputs' i dsts b') := by
  unfold Simulator.post
  rw [h.id]
  obtain ⟨hk, hqueue, hnodes⟩ := h
  apply sendAll
  · exact ⟨hk, hqueue, hnodes⟩
  · exact ⟨hin.messageId _, rfl, hb⟩

theorem bootstrap (h : Rel R J k s s') (hin : Inputs.Rel J inputs inputs') (i : ℕ) :
    Rel R J k (s.bootstrap random inputs i) (s'.bootstrap random inputs' i) := by
  unfold Simulator.bootstrap
  rw [(h.node i).eq]
  exact h.post random hin i _ .JOIN

theorem sendPing (h : Rel R J k s s') (hin : Inputs.Rel J inputs inputs') (i : ℕ)
    (target : String) :
    Rel R J k (s.sendPing random inputs i target) (s'.sendPing random inputs' i target) := by
  unfold Simulator.sendPing
  rw [(h.node i).eq, h.clock]
  dsimp only
  cases (s.nodes i).peers.get target with
  | none => exact h
  | some peer =>
    apply post random _ hin i _ .PING
    exact h.change i rfl rfl

theorem sendPingReqs (h : Rel R J k s s') (hin : Inputs.Rel J inputs inputs') (i : ℕ)
    (target : String) :
    Rel R J k (s.sendPingReqs random inputs i target)
      (s'.sendPingReqs random inputs' i target) := by
  unfold Simulator.sendPingReqs
  rw [(h.node i).eq]
  dsimp only
  cases (s.nodes i).peers.get target with
  | none => exact h
  | some peer =>
    dsimp only
    split
    · exact h
    · apply rel_loop (fun _ _ _ h => h.post random hin i _ .PING_REQ)
      exact h.change i rfl rfl

theorem advanceProbe (h : Rel R J k s s') (hin : Inputs.Rel J inputs inputs') (i : ℕ) :
    Rel R J k (s.advanceProbe random inputs i) (s'.advanceProbe random inputs' i) := by
  unfold Simulator.advanceProbe
  rw [(h.node i).eq, h.clock]
  dsimp only
  cases (s.nodes i).probe with
  | none => exact h
  | some probe =>
    dsimp only
    split
    · exact h.change i rfl rfl
    · split
      · cases probe.phase with
        | indirect => exact h.change i rfl rfl
        | direct =>
          have hreqs := h.sendPingReqs random hin i probe.target
          dsimp only
          rw [(hreqs.node i).eq, hreqs.clock]
          exact hreqs.change i rfl rfl
      · exact h

theorem swimProbe (h : Rel R J k s s') (hin : Inputs.Rel J inputs inputs') (i : ℕ) :
    Rel R J k (s.swimProbe random inputs i) (s'.swimProbe random inputs' i) := by
  have hp := h.advanceProbe random hin i
  unfold Simulator.swimProbe
  dsimp only
  rw [(hp.node i).eq]
  dsimp only
  split
  · exact hp
  · split
    · exact hp
    · apply sendPing random _ hin
      exact hp.change i rfl rfl

theorem wrote {R' : ℚ → ℚ → Prop} (h : Rel R J k s s') (hR : ∀ {a b}, R a b → R' a b) (i : ℕ)
    (hst : DistributedStore.Rel R' st st') :
    Rel R' J (k + 1) (s.wrote i st) (s'.wrote i st') := by
  have hnode : SwarmNode.Rel R' J { s.nodes i with store := st }
      { s'.nodes i with store := st' } := by
    rw [(h.node i).eq]
    exact ⟨hst, (h.node i).seen⟩
  obtain ⟨hk, hqueue, hnodes⟩ := h
  refine ⟨congrArg (· + 1) hk, ?_, ?_⟩
  · exact List.Forall₂.imp (fun _ _ hx => hx.imp hR) hqueue
  · exact rel_update (fun j => (hnodes j).imp hR) i hnode

theorem gossipOnce (h : Rel R J k s s') (hin : Inputs.Rel J inputs inputs') (i : ℕ) :
    Rel R J k (s.gossipOnce random inputs i) (s'.gossipOnce random inputs' i) := by
  obtain ⟨htargets, hn⟩ := (h.node i).selectTargets random
  have hset := h.setNode i hn
  unfold Simulator.gossipOnce
  dsimp only
  rw [← htargets, hn.eq]
  split
  · rw [hn.eq] at hset
    exact hset
  · rw [hn.eq] at hset
    exact hset.post random hin i _ (.GOSSIP hn.store.digest)

theorem route (h : Rel R J k s s') (hin : Inputs.Rel J inputs inputs') (hR : SameOrder R) (i : ℕ)
    (hm : SimMessage.Rel R J m m') :
    Rel R J k (s.route random inputs i m) (s'.route random inputs' i m') := by
  have hn := h.node i
  unfold Simulator.route
  rw [h.clock, ← hm.src]
  obtain ⟨id, src, b⟩ := m
  obtain ⟨id', src', b'⟩ := m'
  obtain ⟨-, -, hb⟩ := hm
  cases hb with
  | GOSSIP hd => exact h.setNode i (hn.apply hR s.clock _ hd)
  | WELCOME hd => exact h.setNode i (hn.apply hR s.clock _ hd)
  | JOIN =>
    dsimp only
    split
    · exact h
    · rw [hn.eq]
      apply post random _ hin i _ (.WELCOME hn.store.digest)
      exact h.change i rfl rfl
  | PING =>
    dsimp only
    split
    · exact h
    · rw [hn.eq]
      exact h.post random hin i _ .ACK
  | PING_REQ => exact h.post random hin i _ .PING
  | ACK =>
    dsimp only
    split
    · exact h
    · exact h.setNode i (hn.handleAck s.clock _)
  | app => exact h

theorem onMessage (h : Rel R J k s s') (hin : Inputs.Rel J inputs inputs') (hR : SameOrder R)
    (i : ℕ) (hm : SimMessage.Rel R J m m') :
    Rel R J k (s.onMessage random inputs i m) (s'.onMessage random inputs' i m') := by
  have hmem : m.id ∈ (s.nodes i).seen ↔ m'.id ∈ (s'.nodes i).seen :=
    List.rel_mem hin.ids hm.id (h.node i).seen
  unfold Simulator.onMessage
  by_cases hseen : m.id ∈ (s.nodes i).seen
  · rw [if_pos hseen, if_pos (hmem.1 hseen)]
    exact h
  · rw [if_neg hseen, if_neg (fun hseen' => hseen (hmem.2 hseen'))]
    exact (h.setNode i ((h.node i).remember hm.id)).route random hin hR i hm

theorem deliver (h : Rel R J k s s') (hin : Inputs.Rel J inputs inputs') (hR : SameOrder R)
    (hx : Queued.Rel R J x x') :
    Rel R J k (s.deliver random inputs x) (s'.deliver random inputs' x') := by
  have hfind : (List.range s'.built).find? (fun i => (s'.nodes i).address = x'.dst) =
      (List.range s.built).find? (fun i => (s.nodes i).address = x.dst) := by
    simp only [h.address, h.built, hx.dst]
  unfold Simulator.deliver
  rw [hfind, ← hx.message.src, ← hx.message.body.type, ← hx.dst]
  cases (List.range s.built).find? (fun i => (s.nodes i).address = x.dst) with
  | none => exact h
  | some i =>
    apply onMessage random _ hin hR i hx.message
    apply log
    obtain ⟨hk, hqueue, hnodes⟩ := h
    exact ⟨hk, hqueue, hnodes⟩

theorem flushDue (h : Rel R J k s s') (hin : Inputs.Rel J inputs inputs') (hR : SameOrder R) :
    Rel R J k (s.flushDue random inputs) (s'.flushDue random inputs') := by
  obtain ⟨hk, hqueue, hnodes⟩ := h
  rename_i q ns
  have hfilter : ∀ p : ℚ → Bool, List.Forall₂ (Queued.Rel R J)
      (s.network.queue.filter (fun x => p x.deliverAt)) (q.filter (fun x => p x.deliverAt)) := by
    intro p
    apply List.rel_filter _ hqueue
    intro x x' hx
    dsimp only
    rw [hx.deliverAt]
  have hdue := hfilter (fun t => t ≤ s.clock)
  have hkeep := hfilter (fun t => ¬ t ≤ s.clock)
  unfold Simulator.flushDue
  dsimp only
  rw [hdue.length_eq]
  refine List.rel_foldl ?_ ?_ (rel_insertionSort ?_ (rel_picked hdue _))
  · intro s s' h x x' hx
    exact deliver random h hin hR hx
  · exact ⟨hk, hkeep, hnodes⟩
  · intro x x' y y' hx hy
    rw [hx.deliverAt, hy.deliverAt]

theorem live (h : Rel R J k s s') : s'.live = s.live := by
  unfold Simulator.live
  simp only [h.id, h.built, h.crashed]

theorem cutOrHeal (h : Rel R J k s s') : Rel R J k (s.cutOrHeal random) (s'.cutOrHeal random) := by
  obtain ⟨hk, hqueue, hnodes⟩ := h
  unfold Simulator.cutOrHeal
  dsimp only
  split
  · exact ⟨hk, hqueue, hnodes⟩
  · split
    · exact ⟨hk, hqueue, hnodes⟩
    · exact ⟨hk, hqueue, hnodes⟩

theorem crash (h : Rel R J k s s') : Rel R J k (s.crash random) (s'.crash random) := by
  unfold Simulator.crash
  simp only [h.live, h.id]
  obtain ⟨hk, hqueue, hnodes⟩ := h
  dsimp only
  split
  · split
    · exact ⟨hk, hqueue, hnodes⟩
    · exact ⟨hk, hqueue, hnodes⟩
  · exact ⟨hk, hqueue, hnodes⟩

theorem restart (h : Rel R J k s s') (hin : Inputs.Rel J inputs inputs') :
    Rel R J k (s.restart random inputs) (s'.restart random inputs') := by
  obtain ⟨hk, hqueue, hnodes⟩ := h
  unfold Simulator.restart
  dsimp only
  rw [hin.order]
  split
  · exact ⟨hk, hqueue, hnodes⟩
  · split
    · split
      · exact ⟨hk, hqueue, hnodes⟩
      · exact ⟨hk, hqueue, hnodes⟩
    · exact ⟨hk, hqueue, hnodes⟩

theorem maybeFault (h : Rel R J k s s') (hin : Inputs.Rel J inputs inputs') :
    Rel R J k (s.maybeFault random inputs) (s'.maybeFault random inputs') :=
  ((h.cutOrHeal random).crash random).restart random hin

theorem advance (h : Rel R J k s s') :
    Rel R J k { s with clock := s.clock + s.cfg.dt }
      { s' with clock := s'.clock + s'.cfg.dt } := by
  obtain ⟨hk, hqueue, hnodes⟩ := h
  exact ⟨hk, hqueue, hnodes⟩

theorem calm (h : Rel R J k s s') : Rel R J k s.calm s'.calm := by
  obtain ⟨hk, hqueue, hnodes⟩ := h
  exact ⟨hk, hqueue, hnodes⟩

theorem count (h : Rel R J k s s') (n : ℕ) :
    Rel R J k { s with built := n } { s' with built := n } := by
  obtain ⟨hk, hqueue, hnodes⟩ := h
  exact ⟨hk, hqueue, hnodes⟩

theorem start (h : Rel R J k s s') (hin : Inputs.Rel J inputs inputs') (i : ℕ) :
    Rel R J k (s.start random inputs i) (s'.start random inputs' i) := by
  have hopen : Rel R J k
      { s with network := { s.network with
        transports := s.network.transports ++ [(s.nodes i).address] } }
      { s' with network := { s'.network with
        transports := s'.network.transports ++ [(s'.nodes i).address] } } := by
    rw [h.address]
    obtain ⟨hk, hqueue, hnodes⟩ := h
    exact ⟨hk, hqueue, hnodes⟩
  have hpeers : (s'.nodes i).peers = (s.nodes i).peers := by rw [(h.node i).eq]
  have helect := hopen.setNode i ((h.node i).elect (s.nodes i).peers.all)
  unfold Simulator.start
  dsimp only
  rw [hpeers, (helect.node i).eq]
  dsimp only
  split
  · exact helect.count (i + 1)
  · exact (helect.bootstrap random hin i).count (i + 1)

theorem init (hR : R 0 0) (cfg : SimConfig) :
    Rel R J 0 (Simulator.init random cfg : Simulator ρ α) (.init random cfg) :=
  ⟨rfl, .nil, fun _ => ⟨.init hR _, .nil⟩⟩

theorem build (hin : Inputs.Rel J inputs inputs') (hR : SameOrder R) (hzero : R 0 0)
    (cfg : SimConfig) :
    Rel R J 0 (Simulator.build random inputs cfg : Simulator ρ α) (.build random inputs' cfg) := by
  have hstarted : Rel R J 0
      ((List.range cfg.nNodes).foldl (Simulator.start random inputs)
        (Simulator.init random cfg : Simulator ρ α))
      ((List.range cfg.nNodes).foldl (Simulator.start random inputs') (.init random cfg)) :=
    rel_loop (P := Rel R J 0) (fun _ _ i h => start random h hin i) _ (init random hzero cfg)
  exact ((hstarted.flushDue random hin hR).flushDue random hin hR).flushDue random hin hR

end

end Simulator.Rel

/-- Two simulators that went through the same history, after `k` versions of at most `N`. -/
def Simulator.InStep (R : ℕ → ℚ → ℚ → Prop) (J : String → String → Prop) (N : ℕ)
    (s s' : Simulator ρ α) : Prop :=
  ∃ k ≤ N, Simulator.Rel (R k) J k s s'

namespace Simulator.InStep

variable {R : ℕ → ℚ → ℚ → Prop} {s s' : Simulator ρ α} {inputs inputs' : Inputs}

theorem next {f g : ℚ → Simulator ρ α} (hr : Readings R inputs inputs')
    (hk : k ≤ inputs.time.length)
    (h : ∀ {c c'}, SameOrder (R k) → Nudged (R k) (R (k + 1)) → R k c c' →
      Simulator.Rel (R (k + 1)) J (k + 1) (f c) (g c')) :
    Option.Rel (InStep R J inputs.time.length)
      (do let c ← inputs.time[k]?; some (f c)) (do let c ← inputs'.time[k]?; some (g c)) := by
  rcases rel_cases (hr.time k) with ⟨hc, hc'⟩ | ⟨c, c', hc, hc', hcc⟩
  · rw [hc, hc']
    exact .none
  · rw [hc, hc']
    obtain ⟨hlt, -⟩ := List.getElem?_eq_some_iff.1 hc
    exact .some ⟨k + 1, hlt, h (hr.same k hk) (hr.nudged k) hcc⟩

theorem write (h : InStep R J inputs.time.length s s') (hr : Readings R inputs inputs') (i : ℕ)
    (key : Str) (value : Stored α) :
    Option.Rel (InStep R J inputs.time.length) (s.write inputs i key value)
      (s'.write inputs' i key value) := by
  obtain ⟨k, hk, h⟩ := h
  unfold Simulator.write
  rw [h.readings.1, h.readings.2]
  apply next hr hk
  intro c c' hR hR' hc
  exact h.wrote hR'.mono i ((h.node i).store.set hR hR' hc key value)

theorem erase (h : InStep R J inputs.time.length s s') (hr : Readings R inputs inputs') (i : ℕ)
    (key : Str) :
    Option.Rel (InStep R J inputs.time.length) (s.erase inputs i key)
      (s'.erase inputs' i key) := by
  obtain ⟨k, hk, h⟩ := h
  unfold Simulator.erase
  rcases rel_cases ((h.node i).store.data.get key) with ⟨he, he'⟩ | ⟨e, e', he, he', -⟩
  · rw [he, he']
    exact .some ⟨k, hk, h⟩
  · rw [he, he', h.readings.1, h.readings.2]
    apply next hr hk
    intro c c' hR hR' hc
    exact h.wrote hR'.mono i ((h.node i).store.delete hR hR' hc key)

theorem maybeClaim (h : InStep R J inputs.time.length s s') (hr : Readings R inputs inputs')
    (hin : Inputs.Rel J inputs inputs') (i : ℕ) (task : Task α) :
    Option.Rel (InStep R J inputs.time.length) (s.maybeClaim inputs i task)
      (s'.maybeClaim inputs' i task) := by
  obtain ⟨k, hk, h⟩ := h
  have hclaim : (s'.nodes i).tasks.maybeClaim (s'.nodes i).store task
      (inputs'.claimTime s'.claimReadings) 0 =
      (s.nodes i).tasks.maybeClaim (s.nodes i).store task (inputs.claimTime s.claimReadings) 0 := by
    have hcontains := (h.node i).store.contains
    have hreadings : s'.claimReadings = s.claimReadings := by
      obtain ⟨_, _, _⟩ := h
      rfl
    rw [hreadings, ← hin.claimTime, (h.node i).eq]
    unfold TaskBoard.maybeClaim
    dsimp only
    rw [hcontains]
  unfold Simulator.maybeClaim
  dsimp only
  rw [hclaim]
  cases (s.nodes i).tasks.maybeClaim (s.nodes i).store task (inputs.claimTime s.claimReadings) 0
    with
  | none => exact .some ⟨k, hk, h⟩
  | some p =>
    apply write _ hr
    obtain ⟨hmade, hqueue, hnodes⟩ := h
    exact ⟨k, hk, hmade, hqueue, hnodes⟩

section
variable (handler : String → Task α → HandlerOutcome α)

theorem evaluateTask (h : InStep R J inputs.time.length s s') (hr : Readings R inputs inputs')
    (hin : Inputs.Rel J inputs inputs') (i : ℕ) (task : Task α) :
    Option.Rel (InStep R J inputs.time.length) (Simulator.evaluateTask inputs handler i s task)
      (Simulator.evaluateTask inputs' handler i s' task) := by
  have hclaimed := h.maybeClaim hr hin i task
  obtain ⟨k, hk, h⟩ := h
  unfold Simulator.evaluateTask
  dsimp only
  rw [(h.node i).eq]
  dsimp only
  split
  · exact .some ⟨k, hk, h.change i rfl rfl⟩
  · split
    · exact .some ⟨k, hk, h⟩
    · apply rel_bind hclaimed
      rintro t t' ⟨k, hk, ht⟩
      have hclaims : TaskBoard.claims (t'.nodes i).store task.id =
          TaskBoard.claims (t.nodes i).store task.id := by
        unfold TaskBoard.claims
        rw [(ht.node i).store.items]
      rw [hclaims, (ht.node i).eq]
      cases TaskBoard.claims (t.nodes i).store task.id with
      | none => exact .none
      | some claims =>
        have hset : InStep R J inputs.time.length _ _ := ⟨k, hk, ht.change i
          (n := { t.nodes i with tasks := ((t.nodes i).tasks.settle claims task).1 }) rfl rfl⟩
        simp only [Option.bind_eq_bind, Option.bind_some]
        split
        · exact hset.write hr i _ _
        · exact .some hset

theorem evaluate (h : InStep R J inputs.time.length s s') (hr : Readings R inputs inputs')
    (hin : Inputs.Rel J inputs inputs') (i : ℕ) :
    Option.Rel (InStep R J inputs.time.length) (s.evaluate inputs handler i)
      (s'.evaluate inputs' handler i) := by
  have htasks : TaskBoard.tasks (s'.nodes i).store = TaskBoard.tasks (s.nodes i).store := by
    obtain ⟨k, hk, h⟩ := h
    unfold TaskBoard.tasks
    rw [(h.node i).store.items]
  unfold Simulator.evaluate
  rw [htasks]
  cases TaskBoard.tasks (s.nodes i).store with
  | none => exact .none
  | some tasks =>
    exact rel_foldlM (fun _ _ task h => evaluateTask handler h hr hin i task) tasks h

variable (random : PyRandom ρ)

theorem tick (h : InStep R J inputs.time.length s s') (hr : Readings R inputs inputs')
    (hin : Inputs.Rel J inputs inputs') (i : ℕ) :
    Option.Rel (InStep R J inputs.time.length) (s.tick random inputs handler i)
      (s'.tick random inputs' handler i) := by
  obtain ⟨k, hk, h⟩ := h
  have hstart := h.setNode i ((h.node i).startTick s.clock)
  unfold Simulator.tick
  dsimp only
  rw [h.clock]
  generalize s.setNode i ((s.nodes i).startTick s.clock) = t at hstart
  generalize s'.setNode i ((s'.nodes i).startTick s.clock) = t' at hstart
  have hboot : Simulator.Rel (R k) J k
      (if (t.nodes i).seeds ≠ [] ∧ (t.nodes i).peers.all = [] then t.bootstrap random inputs i
        else t)
      (if (t'.nodes i).seeds ≠ [] ∧ (t'.nodes i).peers.all = [] then t'.bootstrap random inputs' i
        else t') := by
    rw [(hstart.node i).eq]
    dsimp only
    split
    · exact hstart.bootstrap random hin i
    · exact hstart
  have hprobe := hboot.swimProbe random hin i
  have hchurn := hprobe.setNode i (hprobe.node i).noteChurn
  have hleader := hchurn.setNode i (hchurn.node i).updateLeader
  apply rel_bind (evaluate handler ⟨k, hk, hleader⟩ hr hin i)
  rintro u u' ⟨k, hk, hu⟩
  exact .some ⟨k, hk, hu.gossipOnce random hin i⟩

theorem ticked (h : InStep R J inputs.time.length s s') (hr : Readings R inputs inputs')
    (hin : Inputs.Rel J inputs inputs') (l : List ℕ) :
    Option.Rel (InStep R J inputs.time.length)
      (do let s ← l.foldlM (Simulator.tick random inputs handler) s
          some (s.flushDue random inputs))
      (do let s ← l.foldlM (Simulator.tick random inputs' handler) s'
          some (s.flushDue random inputs')) := by
  apply rel_bind (rel_foldlM (fun _ _ i h => tick handler random h hr hin i) l h)
  rintro t t' ⟨k, hk, ht⟩
  exact .some ⟨k, hk, ht.flushDue random hin (hr.same k hk)⟩

theorem step (h : InStep R J inputs.time.length s s') (hr : Readings R inputs inputs')
    (hin : Inputs.Rel J inputs inputs') :
    Option.Rel (InStep R J inputs.time.length) (s.step random inputs handler)
      (s'.step random inputs' handler) := by
  obtain ⟨k, hk, h⟩ := h
  have hfault := h.advance.maybeFault random hin
  unfold Simulator.step
  dsimp only
  rw [hfault.live]
  exact ticked handler random ⟨k, hk, hfault⟩ hr hin _

theorem quiesceRound (h : InStep R J inputs.time.length s s') (hr : Readings R inputs inputs')
    (hin : Inputs.Rel J inputs inputs') :
    Option.Rel (InStep R J inputs.time.length) (s.quiesceRound random inputs handler)
      (s'.quiesceRound random inputs' handler) := by
  obtain ⟨k, hk, h⟩ := h
  have hrange : List.range s'.built = List.range s.built := by rw [h.built]
  unfold Simulator.quiesceRound
  dsimp only
  rw [hrange]
  exact ticked handler random ⟨k, hk, h.advance⟩ hr hin _

theorem quiesce (h : InStep R J inputs.time.length s s') (hr : Readings R inputs inputs')
    (hin : Inputs.Rel J inputs inputs') (rounds : ℕ) :
    Option.Rel (InStep R J inputs.time.length) (s.quiesce random inputs handler rounds)
      (s'.quiesce random inputs' handler rounds) := by
  induction rounds generalizing s s' with
  | zero => exact .some h
  | succ rounds ih =>
    unfold Simulator.quiesce
    apply rel_bind (quiesceRound handler random h hr hin)
    intro t t' ht
    exact ih ht

theorem call [PyNone α] (h : InStep R J inputs.time.length s s') (hr : Readings R inputs inputs')
    (hin : Inputs.Rel J inputs inputs') (c : SimCall α) :
    Option.Rel (InStep R J inputs.time.length) (s.call random inputs handler c)
      (s'.call random inputs' handler c) := by
  obtain ⟨k, hk, h⟩ := h
  have hguard : ∀ {i : ℕ} {o o' : Option (Simulator ρ α)},
      Option.Rel (InStep R J inputs.time.length) o o' →
        Option.Rel (InStep R J inputs.time.length) (if i < s.built then o else none)
          (if i < s.built then o' else none) := by
    intro i o o' ho
    split
    · exact ho
    · exact .none
  cases c with
  | step => exact step handler random ⟨k, hk, h⟩ hr hin
  | quiesce rounds => exact quiesce handler random ⟨k, hk, h.calm⟩ hr hin rounds
  | set i key value =>
    simp only [Simulator.call, h.built]
    exact hguard (write ⟨k, hk, h⟩ hr i key value)
  | setLive key value =>
    simp only [Simulator.call]
    rw [h.live, h.rng]
    cases s.live[(random.choice s.live.length s.rng).1]? with
    | none => exact .none
    | some i =>
      apply write _ hr
      obtain ⟨hmade, hqueue, hnodes⟩ := h
      exact ⟨k, hk, hmade, hqueue, hnodes⟩
  | delete i key =>
    simp only [Simulator.call, h.built]
    exact hguard (erase ⟨k, hk, h⟩ hr i key)
  | submit i tid kind args =>
    simp only [Simulator.call, h.built]
    rw [(h.node i).eq]
    exact hguard (write ⟨k, hk, h⟩ hr i _ _)
  | registerHandler i kind =>
    simp only [Simulator.call, h.built]
    rw [(h.node i).eq]
    exact hguard (.some ⟨k, hk, h.change i rfl rfl⟩)
  | send i nodeId type payload =>
    simp only [Simulator.call, h.built]
    rw [(h.node i).eq]
    dsimp only
    apply hguard
    cases (s.nodes i).peers.get nodeId with
    | none => exact .some ⟨k, hk, h⟩
    | some peer => exact .some ⟨k, hk, h.post random hin i _ .app⟩
  | broadcast i type payload =>
    simp only [Simulator.call, h.built]
    rw [(h.node i).eq]
    exact hguard (.some ⟨k, hk, h.post random hin i _ .app⟩)

theorem driven [PyNone α] (hr : Readings R inputs inputs') (hin : Inputs.Rel J inputs inputs')
    (cfg : SimConfig) (calls : List (SimCall α)) :
    Option.Rel (InStep R J inputs.time.length)
      (Simulator.driven random inputs handler cfg calls)
      (Simulator.driven random inputs' handler cfg calls) := by
  have hbuilt : InStep R J inputs.time.length
      (Simulator.build random inputs cfg : Simulator ρ α) (.build random inputs' cfg) :=
    ⟨0, Nat.zero_le _, .build random hin (hr.same 0 (Nat.zero_le _)) hr.zero cfg⟩
  exact rel_foldlM (fun _ _ c h => call handler random h hr hin c) calls hbuilt

end

end Simulator.InStep

end Simulation

end Suprime
