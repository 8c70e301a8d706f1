import Mathlib.Logic.Relation
import Suprime.Simulation

namespace Suprime
set_option autoImplicit true

namespace Simulation

variable {ρ α : Type}

def Body.digest? : Body α → Option (StoreDigest α)
  | .WELCOME _ store => some store
  | .GOSSIP _ store => some store
  | _ => none

/-- A simulator in the middle of a call: with the messages that the network has taken out of its
queue and still has to deliver, and those that it has delivered. -/
structure Midway (ρ α : Type) where
  sim : Simulator ρ α
  due : List (Queued α)
  given : List (SimMessage α)

/-- A node that may have changed, but neither its names nor its store nor what it has seen. -/
structure SwarmNode.Keeps (n n' : SwarmNode ρ α) : Prop where
  id : n'.id = n.id
  address : n'.address = n.address
  store : n'.store = n.store
  seen : n'.seen = n.seen

namespace Simulator

/-- Only what is drawn and how many claims were made are different. -/
structure Drifts (s s' : Simulator ρ α) : Prop where
  cfg : s'.cfg = s.cfg
  clock : s'.clock = s.clock
  network : s'.network = s.network
  nodes : s'.nodes = s.nodes
  built : s'.built = s.built
  crashed : s'.crashed = s.crashed
  versionReadings : s'.versionReadings = s.versionReadings
  messageIds : s'.messageIds = s.messageIds
  history : s'.history = s.history

/-- The next node is registered and becomes part of the swarm. -/
def opened (s : Simulator ρ α) : Simulator ρ α :=
  { s with
    network := { s.network with
      transports := s.network.transports ++ [(s.nodes s.built).address] }
    built := s.built + 1 }

/-- The part of `flush_due` that takes messages out of the queue, and those messages. -/
def taken (random : PyRandom ρ) (s : Simulator ρ α) : Simulator ρ α × List (Queued α) :=
  let due := s.network.queue.filter (fun item => item.deliverAt ≤ s.clock)
  let keep := s.network.queue.filter (fun item => ¬ item.deliverAt ≤ s.clock)
  let (positions, rng) := random.shuffle due.length s.rng
  ({ s with rng, network := { s.network with queue := keep } },
    (picked due positions).insertionSort (fun x y => x.deliverAt ≤ y.deliverAt))

def owner (s : Simulator ρ α) (address : String) : Option ℕ :=
  (List.range s.built).find? (fun i => (s.nodes i).address = address)

/-- A message is counted when it reaches its transport. -/
def handed (s : Simulator ρ α) (item : Queued α) : Simulator ρ α :=
  { s with network := { s.network with delivered := s.network.delivered + 1 } }.log
    (.deliver item.message.src item.dst item.message.body.type)

/-- A message that node `i` posts carries no digest of a store but its own. -/
def Honest (s : Simulator ρ α) (i : ℕ) (body : Body α) : Prop :=
  ∀ d, body.digest? = some d → d = (s.nodes i).store.digest

end Simulator

/-- What a node does by itself between two moments. -/
inductive LocalMove (random : PyRandom ρ) (inputs : Inputs) :
    Simulator ρ α → Simulator ρ α → Prop
  | drift : s.Drifts s' → LocalMove random inputs s s'
  | node : (s.nodes i).Keeps n → LocalMove random inputs s (s.setNode i n)
  | write : i < s.built → s.write inputs i key value = some s' → LocalMove random inputs s s'
  | erase : i < s.built → s.erase inputs i key = some s' → LocalMove random inputs s s'
  | post : s.Honest i body → LocalMove random inputs s (s.post random inputs i dsts body)

/-- What happens between two moments of a call. -/
inductive Move (random : PyRandom ρ) (inputs : Inputs) : Midway ρ α → Midway ρ α → Prop
  | act : LocalMove random inputs s s' → Move random inputs ⟨s, due, given⟩ ⟨s', due, given⟩
  | advance :
      Move random inputs ⟨s, due, given⟩ ⟨{ s with clock := s.clock + s.cfg.dt }, due, given⟩
  | opened : Move random inputs ⟨s, due, given⟩ ⟨s.opened, due, given⟩
  | cutOrHeal : Move random inputs ⟨s, due, given⟩ ⟨s.cutOrHeal random, due, given⟩
  | crash : Move random inputs ⟨s, due, given⟩ ⟨s.crash random, due, given⟩
  | restart : Move random inputs ⟨s, due, given⟩ ⟨s.restart random inputs, due, given⟩
  | calm : Move random inputs ⟨s, due, given⟩ ⟨s.calm, due, given⟩
  | take : Move random inputs ⟨s, [], given⟩ ⟨(s.taken random).1, (s.taken random).2, given⟩
  | hand : s.owner item.dst = some i →
      Move random inputs ⟨s, item :: due, given⟩ ⟨s.handed item, due, item.message :: given⟩
  | strand : s.owner item.dst = none →
      Move random inputs ⟨s, item :: due, given⟩ ⟨s, due, given⟩
  | remember : m ∈ given →
      Move random inputs ⟨s, due, given⟩ ⟨s.setNode i ((s.nodes i).remember m.id), due, given⟩
  | hear : m ∈ given → m.body.digest? = some d → i < s.built →
      Move random inputs ⟨s, due, given⟩
        ⟨s.setNode i ((s.nodes i).apply s.clock membership d), due, given⟩

def LocalMoves (random : PyRandom ρ) (inputs : Inputs) :
    Simulator ρ α → Simulator ρ α → Prop :=
  Relation.ReflTransGen (LocalMove random inputs)

/-- One moment of a call comes after another. -/
def Moves (random : PyRandom ρ) (inputs : Inputs) : Midway ρ α → Midway ρ α → Prop :=
  Relation.ReflTransGen (Move random inputs)

namespace SwarmNode

theorem keeps_noteChurn (n : SwarmNode ρ α) : n.Keeps n.noteChurn := by
  unfold noteChurn
  split <;> exact ⟨rfl, rfl, rfl, rfl⟩

theorem keeps_selectTargets (random : PyRandom ρ) (n : SwarmNode ρ α) :
    n.Keeps (n.selectTargets random).2 := by
  unfold selectTargets
  dsimp only
  split <;> exact ⟨rfl, rfl, rfl, rfl⟩

end SwarmNode

namespace LocalMoves

variable {random : PyRandom ρ} {inputs : Inputs} {s s' : Simulator ρ α}

theorem drift (h : s.Drifts s') : LocalMoves random inputs s s' := .single (.drift h)

theorem node (h : (s.nodes i).Keeps n) : LocalMoves random inputs s (s.setNode i n) :=
  .single (.node h)

theorem foldl {f : Simulator ρ α → β → Simulator ρ α} {l : List β}
    (hf : ∀ s b, LocalMoves random inputs s (f s b)) :
    LocalMoves random inputs s (l.foldl f s) := by
  induction l generalizing s with
  | nil => exact .refl
  | cons b l ih => exact (hf s b).trans ih

theorem moves (h : LocalMoves random inputs s s') :
    Moves random inputs ⟨s, due, given⟩ ⟨s', due, given⟩ := by
  induction h with
  | refl => exact .refl
  | tail _ hmove ih => exact ih.tail (.act hmove)

end LocalMoves

namespace Simulator

variable (random : PyRandom ρ) (inputs : Inputs)

theorem enqueue_cases (s : Simulator ρ α) (src dst : String) (m : SimMessage α) :
    s.enqueue random src dst m = s.log (.refuse m.src dst m.body.type) ∨
    (∃ rng, s.enqueue random src dst m =
      { s with rng, network := { s.network with dropped := s.network.dropped + 1 } }.log
        (.drop m.src dst m.body.type)) ∨
    ∃ (rng : ρ) (deliverAt : ℚ), dst ∈ s.network.transports ∧
      (s.network.maxLatency = 0 → deliverAt = s.clock) ∧ s.enqueue random src dst m =
      { s with
        rng
        network := { s.network with
          seq := s.network.seq + 1
          queue := s.network.queue ++
            [(⟨deliverAt, s.network.seq + 1, dst, m⟩ : Queued α)] } }.log
        (.send m.src dst m.body.type) := by
  unfold enqueue
  dsimp only
  split
  · exact .inl rfl
  · rename_i hreach
    split
    · exact .inr (.inl ⟨_, rfl⟩)
    · rw [not_or, not_not] at hreach
      refine .inr (.inr ⟨_, _, hreach.1, fun hlatency => ?_, rfl⟩)
      rw [drawLatency, if_pos hlatency, add_zero]

theorem nodes_enqueue (s : Simulator ρ α) (src dst : String) (m : SimMessage α) :
    (s.enqueue random src dst m).nodes = s.nodes ∧
      (s.enqueue random src dst m).built = s.built := by
  rcases s.enqueue_cases random src dst m with h | ⟨_, h⟩ | ⟨_, _, _, _, h⟩ <;>
  · rw [h]
    exact ⟨rfl, rfl⟩

theorem cutOrHeal_cases (s : Simulator ρ α) : ∃ rng partitions events,
    s.cutOrHeal random = { s with
      rng
      network := { s.network with partitions }
      history := s.history ++ events } ∧
    ∀ e ∈ events, e = .heal ∨ ∃ left right, e = .partition left right := by
  unfold cutOrHeal
  dsimp only
  split
  · exact ⟨_, _, [_], rfl, fun e he => .inr ⟨_, _, List.mem_singleton.1 he⟩⟩
  · split
    · exact ⟨_, _, [_], rfl, fun e he => .inl (List.mem_singleton.1 he)⟩
    · exact ⟨_, s.network.partitions, [], by rw [List.append_nil], fun e he => by cases he⟩

/-- A live node crashes while there are more than two, or nothing but a draw happens. -/
theorem crash_cases (s : Simulator ρ α) :
    (∃ rng, s.crash random = { s with rng }) ∨
    ∃ rng victim, victim ∈ s.live ∧ 2 < s.live.length ∧ s.crash random =
      { s with rng, crashed := s.crashed ++ [(s.nodes victim).id] }.log
        (.crash (s.nodes victim).id) := by
  unfold crash
  dsimp only
  split
  · rename_i hlive
    split
    · exact .inl ⟨s.rng, rfl⟩
    · rename_i victim hvictim
      exact .inr ⟨_, victim, List.mem_of_getElem? hvictim, hlive.2, rfl⟩
  · exact .inl ⟨_, rfl⟩

/-- A crashed node restarts, or nothing but a draw happens. -/
theorem restart_cases (s : Simulator ρ α) :
    (∃ rng, s.restart random inputs = { s with rng }) ∨
    ∃ rng reborn, s.restart random inputs =
      { s with
        rng
        crashed := s.crashed.erase reborn
        enumerations := s.enumerations + 1 }.log (.restart reborn) := by
  unfold restart
  dsimp only
  split
  · exact .inl ⟨s.rng, rfl⟩
  · split
    · split
      · exact .inl ⟨s.rng, rfl⟩
      · exact .inr ⟨_, _, rfl⟩
    · exact .inl ⟨_, rfl⟩

/-- Whatever the faults do, the nodes and the messages on their way stay as they are. -/
structure Rests (s s' : Simulator ρ α) : Prop where
  nodes : s'.nodes = s.nodes
  queue : s'.network.queue = s.network.queue
  versionReadings : s'.versionReadings = s.versionReadings
  messageIds : s'.messageIds = s.messageIds
  maxLatency : s.network.maxLatency = 0 → s'.network.maxLatency = 0
  built : s.built ≤ s'.built

namespace Rests

theorem advance {s : Simulator ρ α} : s.Rests { s with clock := s.clock + s.cfg.dt } :=
  ⟨rfl, rfl, rfl, rfl, id, le_rfl⟩

theorem opened {s : Simulator ρ α} : s.Rests s.opened :=
  ⟨rfl, rfl, rfl, rfl, id, Nat.le_succ _⟩

theorem calm {s : Simulator ρ α} : s.Rests s.calm :=
  ⟨rfl, rfl, rfl, rfl, fun _ => rfl, le_rfl⟩

theorem cutOrHeal {s : Simulator ρ α} : s.Rests (s.cutOrHeal random) := by
  obtain ⟨_, _, _, h, _⟩ := s.cutOrHeal_cases random
  rw [h]
  exact ⟨rfl, rfl, rfl, rfl, id, le_rfl⟩

theorem crash {s : Simulator ρ α} : s.Rests (s.crash random) := by
  rcases s.crash_cases random with ⟨_, h⟩ | ⟨_, _, _, _, h⟩ <;>
  · rw [h]
    exact ⟨rfl, rfl, rfl, rfl, id, le_rfl⟩

theorem restart {s : Simulator ρ α} : s.Rests (s.restart random inputs) := by
  rcases s.restart_cases random inputs with ⟨_, h⟩ | ⟨_, _, h⟩ <;>
  · rw [h]
    exact ⟨rfl, rfl, rfl, rfl, id, le_rfl⟩

end Rests

theorem post_induction {I : Simulator ρ α → Prop} {s : Simulator ρ α} (i : ℕ)
    (dsts : List String) (body : Body α) (hI : I { s with messageIds := s.messageIds + 1 })
    (hsend : ∀ t : Simulator ρ α, t.nodes = s.nodes → I t → ∀ dst,
      I (t.enqueue random (t.nodes i).address dst
        ⟨inputs.messageId s.messageIds, (s.nodes i).id, body⟩)) :
    I (s.post random inputs i dsts body) := by
  have hall : ∀ (dsts : List String) (t : Simulator ρ α), t.nodes = s.nodes → I t →
      I (t.sendAll random i dsts ⟨inputs.messageId s.messageIds, (s.nodes i).id, body⟩) := by
    intro dsts
    induction dsts with
    | nil => exact fun t _ ht => ht
    | cons dst dsts ih =>
      intro t hnodes ht
      refine ih _ ?_ (hsend t hnodes ht dst)
      rw [(t.nodes_enqueue random _ dst _).1, hnodes]
  exact hall dsts _ rfl hI

theorem nodes_post (s : Simulator ρ α) (i : ℕ) (dsts : List String) (body : Body α) :
    (s.post random inputs i dsts body).nodes = s.nodes ∧
      (s.post random inputs i dsts body).built = s.built := by
  refine s.post_induction random inputs (I := fun t => t.nodes = s.nodes ∧ t.built = s.built) i
    dsts body ⟨rfl, rfl⟩ (fun t _ ht dst => ?_)
  obtain ⟨hnodes, hbuilt⟩ := t.nodes_enqueue random (t.nodes i).address dst
    ⟨inputs.messageId s.messageIds, (s.nodes i).id, body⟩
  exact ⟨hnodes.trans ht.1, hbuilt.trans ht.2⟩

end Simulator

namespace LocalMoves

variable {random : PyRandom ρ} {inputs : Inputs} {s s' : Simulator ρ α}

theorem built (h : LocalMoves random inputs s s') : s'.built = s.built := by
  induction h with
  | refl => rfl
  | tail _ hmove ih =>
    apply Eq.trans _ ih
    cases hmove with
    | drift hd => exact hd.built
    | node => rfl
    | write _ hs =>
      obtain ⟨clock, _, hs⟩ := Option.bind_eq_some_iff.1 hs
      cases hs
      rfl
    | erase _ hs =>
      unfold Simulator.erase at hs
      split at hs
      · cases hs
        rfl
      · obtain ⟨clock, _, hs⟩ := Option.bind_eq_some_iff.1 hs
        cases hs
        rfl
    | post => exact (Simulator.nodes_post random inputs _ _ _ _).2

theorem foldlM {f : Simulator ρ α → β → Option (Simulator ρ α)} {l : List β}
    (hf : ∀ t, t.built = s.built → ∀ b ∈ l, ∀ t', f t b = some t' → LocalMoves random inputs t t')
    (h : l.foldlM f s = some s') : LocalMoves random inputs s s' := by
  induction l generalizing s with
  | nil =>
    cases h
    exact .refl
  | cons b l ih =>
    rw [List.foldlM_cons] at h
    obtain ⟨t, ht, h⟩ := Option.bind_eq_some_iff.1 h
    have hfirst := hf s rfl b List.mem_cons_self t ht
    apply hfirst.trans
    apply ih _ h
    intro u hu c hc
    exact hf u (hu.trans hfirst.built) c (List.mem_cons_of_mem _ hc)

end LocalMoves

namespace Simulator

variable (random : PyRandom ρ) (inputs : Inputs)

theorem local_tell (s : Simulator ρ α) (i : ℕ) (dsts : List String) (h : body.digest? = none) :
    LocalMoves random inputs s (s.post random inputs i dsts body) := by
  refine .single (.post (fun d hd => ?_))
  rw [h] at hd
  cases hd

theorem local_bootstrap (s : Simulator ρ α) (i : ℕ) :
    LocalMoves random inputs s (s.bootstrap random inputs i) :=
  s.local_tell random inputs i _ rfl

theorem local_sendPing (s : Simulator ρ α) (i : ℕ) (target : String) :
    LocalMoves random inputs s (s.sendPing random inputs i target) := by
  unfold sendPing
  dsimp only
  split
  · exact .refl
  · have hprobe : (s.nodes i).Keeps
        { s.nodes i with probe := some ⟨target, s.clock, .direct⟩ } := ⟨rfl, rfl, rfl, rfl⟩
    exact (LocalMoves.node hprobe).trans ((s.setNode i _).local_tell random inputs i _ rfl)

theorem local_sendPingReqs (s : Simulator ρ α) (i : ℕ) (target : String) :
    LocalMoves random inputs s (s.sendPingReqs random inputs i target) := by
  unfold sendPingReqs
  dsimp only
  split
  · exact .refl
  · split
    · exact .refl
    · have hdraw : ∀ rng, (s.nodes i).Keeps { s.nodes i with rng } := fun _ => ⟨rfl, rfl, rfl, rfl⟩
      exact (LocalMoves.node (hdraw _)).trans
        (LocalMoves.foldl (fun t helper => t.local_tell random inputs i _ rfl))

theorem local_advanceProbe (s : Simulator ρ α) (i : ℕ) :
    LocalMoves random inputs s (s.advanceProbe random inputs i) := by
  have hprobe : ∀ (t : Simulator ρ α) probe, (t.nodes i).Keeps { t.nodes i with probe } :=
    fun _ _ => ⟨rfl, rfl, rfl, rfl⟩
  unfold advanceProbe
  dsimp only
  split
  · exact .refl
  · split
    · exact .node (hprobe s _)
    · split
      · split
        · exact (s.local_sendPingReqs random inputs i _).trans (LocalMoves.node (hprobe _ _))
        · exact .node (hprobe s _)
      · exact .refl

theorem local_swimProbe (s : Simulator ρ α) (i : ℕ) :
    LocalMoves random inputs s (s.swimProbe random inputs i) := by
  have hadvance := s.local_advanceProbe random inputs i
  unfold swimProbe
  dsimp only
  generalize s.advanceProbe random inputs i = t at hadvance
  split
  · exact hadvance
  · split
    · exact hadvance
    · have hdraw : ∀ rng, (t.nodes i).Keeps { t.nodes i with rng } := fun _ => ⟨rfl, rfl, rfl, rfl⟩
      exact (hadvance.trans (LocalMoves.node (hdraw _))).trans
        ((t.setNode i _).local_sendPing random inputs i _)

theorem local_maybeClaim {s s' : Simulator ρ α} (hi : i < s.built)
    (h : s.maybeClaim inputs i task = some s') : LocalMoves random inputs s s' := by
  unfold maybeClaim at h
  dsimp only at h
  split at h
  · cases h
    exact .refl
  · have hdrift : s.Drifts { s with claimReadings := s.claimReadings + 1 } :=
      ⟨rfl, rfl, rfl, rfl, rfl, rfl, rfl, rfl, rfl⟩
    exact (LocalMoves.drift hdrift).trans (.single (.write hi h))

variable (handler : String → Task α → HandlerOutcome α)

theorem local_evaluateTask {s s' : Simulator ρ α} (hi : i < s.built)
    (h : s.evaluateTask inputs handler i task = some s') : LocalMoves random inputs s s' := by
  have hboard : ∀ (t : Simulator ρ α) tasks, (t.nodes i).Keeps { t.nodes i with tasks } :=
    fun _ _ => ⟨rfl, rfl, rfl, rfl⟩
  unfold evaluateTask at h
  dsimp only at h
  split at h
  · cases h
    exact .node (hboard s _)
  · split at h
    · cases h
      exact .refl
    · obtain ⟨t, ht, h⟩ := Option.bind_eq_some_iff.1 h
      obtain ⟨claims, _, h⟩ := Option.bind_eq_some_iff.1 h
      have hclaim : LocalMoves random inputs s t := local_maybeClaim random inputs hi ht
      have hsettle := hclaim.trans
        (LocalMoves.node (hboard t ((t.nodes i).tasks.settle claims task).1))
      split at h
      · exact hsettle.trans (.single (.write (hclaim.built ▸ hi) h))
      · cases h
        exact hsettle

theorem local_evaluate {s s' : Simulator ρ α} (hi : i < s.built)
    (h : s.evaluate inputs handler i = some s') : LocalMoves random inputs s s' := by
  obtain ⟨tasks, _, h⟩ := Option.bind_eq_some_iff.1 h
  apply LocalMoves.foldlM _ h
  intro t ht task _ t' htask
  exact local_evaluateTask random inputs handler (ht ▸ hi) htask

theorem local_gossipOnce (s : Simulator ρ α) (i : ℕ) :
    LocalMoves random inputs s (s.gossipOnce random inputs i) := by
  have hkeeps := (s.nodes i).keeps_selectTargets random
  unfold gossipOnce
  dsimp only
  split
  · exact .node hkeeps
  · refine (LocalMoves.node hkeeps).trans (.single (.post (fun d hd => ?_)))
    cases hd
    simp only [setNode, Function.update_self]

theorem local_tick {s s' : Simulator ρ α} (hi : i < s.built)
    (h : s.tick random inputs handler i = some s') : LocalMoves random inputs s s' := by
  obtain ⟨t, ht, h⟩ := Option.bind_eq_some_iff.1 h
  cases h
  have hafter : ∀ u, LocalMoves random inputs s u → u.evaluate inputs handler i = some t →
      LocalMoves random inputs s (t.gossipOnce random inputs i) := by
    intro u hu hevaluate
    have hboard := local_evaluate random inputs handler (hu.built ▸ hi) hevaluate
    exact (hu.trans hboard).trans (t.local_gossipOnce random inputs i)
  apply hafter _ _ ht
  have hstart : (s.nodes i).Keeps ((s.nodes i).startTick s.clock) := ⟨rfl, rfl, rfl, rfl⟩
  have hleader : ∀ n : SwarmNode ρ α, n.Keeps n.updateLeader := fun n => ⟨rfl, rfl, rfl, rfl⟩
  refine Relation.ReflTransGen.trans ?_ (LocalMoves.node (hleader _))
  refine Relation.ReflTransGen.trans ?_ (LocalMoves.node (SwarmNode.keeps_noteChurn _))
  refine Relation.ReflTransGen.trans ?_ (local_swimProbe random inputs _ i)
  refine (LocalMoves.node hstart).trans ?_
  split
  · exact (s.setNode i _).local_bootstrap random inputs i
  · exact .refl

theorem live_lt (s : Simulator ρ α) : ∀ i ∈ s.live, i < s.built :=
  fun _ hi => List.mem_range.1 (List.mem_of_mem_filter hi)

theorem local_ticks {s s' : Simulator ρ α} {l : List ℕ} (hl : ∀ i ∈ l, i < s.built)
    (h : l.foldlM (tick random inputs handler) s = some s') : LocalMoves random inputs s s' := by
  apply LocalMoves.foldlM _ h
  intro t ht i hi t' htick
  exact local_tick random inputs handler (ht ▸ hl i hi) htick

/-- A node applies the digest that a message carries, and acts by itself on another message. -/
theorem route_cases (s : Simulator ρ α) (i : ℕ) (m : SimMessage α) :
    (∃ membership d, m.body.digest? = some d ∧ s.route random inputs i m =
      s.setNode i ((s.nodes i).apply s.clock membership d)) ∨
    m.body.digest? = none ∧ LocalMoves random inputs s (s.route random inputs i m) := by
  obtain ⟨id, src, body⟩ := m
  cases body with
  | GOSSIP membership store => exact .inl ⟨membership, store, rfl, rfl⟩
  | WELCOME membership store => exact .inl ⟨membership, store, rfl, rfl⟩
  | JOIN address heartbeat =>
    refine .inr ⟨rfl, ?_⟩
    simp only [route]
    split
    · exact .refl
    · have hkeeps : (s.nodes i).Keeps { s.nodes i with
          peers := ((s.nodes i).peers.merge s.clock ⟨src, address, heartbeat⟩).1 } :=
        ⟨rfl, rfl, rfl, rfl⟩
      refine (LocalMoves.node hkeeps).trans (.single (.post (fun d hd => ?_)))
      cases hd
      simp only [setNode, Function.update_self]
  | PING subject ackTo ackAddr =>
    refine .inr ⟨rfl, ?_⟩
    simp only [route]
    split
    · exact .refl
    · exact s.local_tell random inputs i _ rfl
  | PING_REQ subject subjectAddr ackTo ackAddr =>
    exact .inr ⟨rfl, s.local_tell random inputs i _ rfl⟩
  | ACK subject =>
    refine .inr ⟨rfl, ?_⟩
    simp only [route]
    split
    · exact .refl
    · exact .node ⟨rfl, rfl, rfl, rfl⟩
  | app type payload => exact .inr ⟨rfl, .refl⟩

theorem moves_route (s : Simulator ρ α) (hi : i < s.built) (hm : m ∈ given) :
    Moves random inputs ⟨s, due, given⟩ ⟨s.route random inputs i m, due, given⟩ := by
  rcases s.route_cases random inputs i m with ⟨membership, d, hd, hroute⟩ | ⟨_, hroute⟩
  · rw [hroute]
    exact .single (.hear hm hd hi)
  · exact hroute.moves

theorem moves_onMessage (s : Simulator ρ α) (hi : i < s.built) (hm : m ∈ given) :
    Moves random inputs ⟨s, due, given⟩ ⟨s.onMessage random inputs i m, due, given⟩ := by
  unfold onMessage
  split
  · exact .refl
  · exact Relation.ReflTransGen.head (.remember hm)
      ((s.setNode i _).moves_route random inputs hi hm)

theorem moves_deliver (s : Simulator ρ α) (item : Queued α) (due : List (Queued α))
    (given : List (SimMessage α)) : ∃ given',
    Moves random inputs ⟨s, item :: due, given⟩ ⟨s.deliver random inputs item, due, given'⟩ := by
  unfold deliver
  split
  · rename_i hnone
    exact ⟨given, .single (.strand hnone)⟩
  · rename_i i hsome
    refine ⟨item.message :: given, Relation.ReflTransGen.head (.hand hsome) ?_⟩
    have hi : i < s.built := List.mem_range.1 (List.mem_of_find?_eq_some hsome)
    exact (s.handed item).moves_onMessage random inputs hi List.mem_cons_self

theorem moves_deliverAll (s : Simulator ρ α) (due : List (Queued α))
    (given : List (SimMessage α)) : ∃ given',
    Moves random inputs ⟨s, due, given⟩ ⟨due.foldl (deliver random inputs) s, [], given'⟩ := by
  induction due generalizing s given with
  | nil => exact ⟨given, .refl⟩
  | cons item due ih =>
    obtain ⟨given', hfirst⟩ := s.moves_deliver random inputs item due given
    obtain ⟨given'', hrest⟩ := ih (s.deliver random inputs item) given'
    exact ⟨given'', hfirst.trans hrest⟩

theorem moves_flushDue (s : Simulator ρ α) (given : List (SimMessage α)) : ∃ given',
    Moves random inputs ⟨s, [], given⟩ ⟨s.flushDue random inputs, [], given'⟩ := by
  obtain ⟨given', hrest⟩ := (s.taken random).1.moves_deliverAll random inputs
    (s.taken random).2 given
  exact ⟨given', Relation.ReflTransGen.head .take hrest⟩

theorem moves_maybeFault (s : Simulator ρ α) (due : List (Queued α))
    (given : List (SimMessage α)) :
    Moves random inputs ⟨s, due, given⟩ ⟨s.maybeFault random inputs, due, given⟩ :=
  ((Relation.ReflTransGen.single .cutOrHeal).tail .crash).tail .restart

theorem moves_step {s s' : Simulator ρ α} (h : s.step random inputs handler = some s')
    (given : List (SimMessage α)) :
    ∃ given', Moves random inputs ⟨s, [], given⟩ ⟨s', [], given'⟩ := by
  obtain ⟨t, ht, h⟩ := Option.bind_eq_some_iff.1 h
  cases h
  obtain ⟨given', hflush⟩ := t.moves_flushDue random inputs given
  have hticks := local_ticks random inputs handler (live_lt _) ht
  have hfault := moves_maybeFault random inputs { s with clock := s.clock + s.cfg.dt } [] given
  exact ⟨given', (Relation.ReflTransGen.head .advance (hfault.trans hticks.moves)).trans hflush⟩

theorem moves_quiesceRound {s s' : Simulator ρ α}
    (h : s.quiesceRound random inputs handler = some s') (given : List (SimMessage α)) :
    ∃ given', Moves random inputs ⟨s, [], given⟩ ⟨s', [], given'⟩ := by
  obtain ⟨u, hu, h⟩ := Option.bind_eq_some_iff.1 h
  cases h
  obtain ⟨given', hflush⟩ := u.moves_flushDue random inputs given
  have hticks := local_ticks random inputs handler (fun i hi => List.mem_range.1 hi) hu
  exact ⟨given', (Relation.ReflTransGen.head .advance hticks.moves).trans hflush⟩

theorem moves_quiesce {s s' : Simulator ρ α} {rounds : ℕ}
    (h : s.quiesce random inputs handler rounds = some s') (given : List (SimMessage α)) :
    ∃ given', Moves random inputs ⟨s, [], given⟩ ⟨s', [], given'⟩ := by
  induction rounds generalizing s given with
  | zero =>
    cases h
    exact ⟨given, .refl⟩
  | succ rounds ih =>
    obtain ⟨t, ht, h⟩ := Option.bind_eq_some_iff.1 h
    obtain ⟨given', hround⟩ := moves_quiesceRound random inputs handler ht given
    obtain ⟨given'', hrest⟩ := ih h given'
    exact ⟨given'', hround.trans hrest⟩

theorem moves_call [PyNone α] {s s' : Simulator ρ α} {c : SimCall α}
    (h : s.call random inputs handler c = some s') (given : List (SimMessage α)) :
    ∃ given', Moves random inputs ⟨s, [], given⟩ ⟨s', [], given'⟩ := by
  cases c with
  | step => exact moves_step random inputs handler h given
  | quiesce rounds =>
    obtain ⟨given', hrest⟩ := moves_quiesce random inputs handler h given
    exact ⟨given', Relation.ReflTransGen.head .calm hrest⟩
  | set i key value =>
    simp only [call] at h
    split at h
    · rename_i hi
      exact ⟨given, .single (.act (.write hi h))⟩
    · cases h
  | setLive key value =>
    obtain ⟨i, hlive, h⟩ := Option.bind_eq_some_iff.1 h
    have hi := s.live_lt i (List.mem_of_getElem? hlive)
    have hdrift : s.Drifts { s with rng := (random.choice s.live.length s.rng).2 } :=
      ⟨rfl, rfl, rfl, rfl, rfl, rfl, rfl, rfl, rfl⟩
    exact ⟨given, (LocalMoves.drift hdrift).moves.tail (.act (.write hi h))⟩
  | delete i key =>
    simp only [call] at h
    split at h
    · rename_i hi
      exact ⟨given, .single (.act (.erase hi h))⟩
    · cases h
  | submit i tid kind args =>
    simp only [call] at h
    split at h
    · rename_i hi
      exact ⟨given, .single (.act (.write hi h))⟩
    · cases h
  | registerHandler i kind =>
    simp only [call] at h
    split at h
    · cases h
      exact ⟨given, .single (.act (.node ⟨rfl, rfl, rfl, rfl⟩))⟩
    · cases h
  | send i nodeId type payload =>
    simp only [call] at h
    split at h
    · split at h
      · cases h
        exact ⟨given, .refl⟩
      · cases h
        exact ⟨given, (s.local_tell random inputs i _ rfl).moves⟩
    · cases h
  | broadcast i type payload =>
    simp only [call] at h
    split at h
    · cases h
      exact ⟨given, (s.local_tell random inputs i _ rfl).moves⟩
    · cases h

theorem enqueue_built (s : Simulator ρ α) (b : ℕ) (src dst : String) (m : SimMessage α) :
    { s with built := b }.enqueue random src dst m =
      { s.enqueue random src dst m with built := b } := by
  unfold enqueue
  dsimp only
  split
  · rfl
  · split <;> rfl

theorem bootstrap_built (s : Simulator ρ α) (b i : ℕ) :
    { s with built := b }.bootstrap random inputs i =
      { s.bootstrap random inputs i with built := b } := by
  have hsend : ∀ (dsts : List String) (t : Simulator ρ α) (m : SimMessage α),
      { t with built := b }.sendAll random i dsts m =
        { t.sendAll random i dsts m with built := b } := by
    intro dsts t m
    induction dsts generalizing t with
    | nil => rfl
    | cons dst dsts ih =>
      simp only [sendAll, List.foldl_cons] at ih ⊢
      rw [enqueue_built]
      exact ih (t.enqueue random (t.nodes i).address dst m)
  exact hsend _ { s with messageIds := s.messageIds + 1 } _

theorem moves_start (s : Simulator ρ α) (due : List (Queued α)) (given : List (SimMessage α)) :
    (s.start random inputs s.built).built = s.built + 1 ∧
    Moves random inputs ⟨s, due, given⟩ ⟨s.start random inputs s.built, due, given⟩ := by
  have helect : (s.opened.nodes s.built).Keeps
      ((s.nodes s.built).elect (s.nodes s.built).peers.all) := ⟨rfl, rfl, rfl, rfl⟩
  have hopen : Moves random inputs ⟨s, due, given⟩
      ⟨s.opened.setNode s.built ((s.nodes s.built).elect (s.nodes s.built).peers.all), due,
        given⟩ := (Relation.ReflTransGen.single .opened).tail (.act (.node helect))
  unfold start
  dsimp only
  split
  · exact ⟨rfl, hopen⟩
  · rw [← bootstrap_built]
    refine ⟨rfl, hopen.trans ?_⟩
    exact ((s.opened.setNode s.built _).local_bootstrap random inputs s.built).moves

theorem moves_build (cfg : SimConfig) : ∃ given',
    Moves random inputs ⟨(init random cfg : Simulator ρ α), [], []⟩
      ⟨build random inputs cfg, [], given'⟩ := by
  have hstart : ∀ n, ((List.range n).foldl (start random inputs)
        (init random cfg : Simulator ρ α)).built = n ∧
      Moves random inputs ⟨(init random cfg : Simulator ρ α), [], []⟩
        ⟨(List.range n).foldl (start random inputs) (init random cfg), [], []⟩ := by
    intro n
    induction n with
    | zero => exact ⟨rfl, .refl⟩
    | succ n ih =>
      obtain ⟨hbuilt, hmoves⟩ := ih
      rw [List.range_succ, List.foldl_append, List.foldl_cons, List.foldl_nil]
      obtain ⟨hnext, hstep⟩ := moves_start random inputs
        ((List.range n).foldl (start random inputs) (init random cfg)) [] []
      rw [hbuilt] at hnext hstep
      exact ⟨hnext, hmoves.trans hstep⟩
  obtain ⟨given₁, h₁⟩ := moves_flushDue random inputs
    ((List.range cfg.nNodes).foldl (start random inputs) (init random cfg : Simulator ρ α)) []
  obtain ⟨given₂, h₂⟩ := moves_flushDue random inputs
    (((List.range cfg.nNodes).foldl (start random inputs) (init random cfg)).flushDue random inputs)
    given₁
  obtain ⟨given₃, h₃⟩ := moves_flushDue random inputs
    ((((List.range cfg.nNodes).foldl (start random inputs) (init random cfg)).flushDue random
      inputs).flushDue random inputs) given₂
  exact ⟨given₃, (((hstart cfg.nNodes).2.trans h₁).trans h₂).trans h₃⟩

theorem moves_driven [PyNone α] {s : Simulator ρ α} {cfg : SimConfig} {calls : List (SimCall α)}
    (h : driven random inputs handler cfg calls = some s) : ∃ given',
    Moves random inputs ⟨init random cfg, [], []⟩ ⟨s, [], given'⟩ := by
  obtain ⟨given, hbuild⟩ := moves_build random inputs (α := α) cfg
  have hcalls : ∀ (calls : List (SimCall α)) (t : Simulator ρ α) given,
      calls.foldlM (call random inputs handler) t = some s →
      ∃ given', Moves random inputs ⟨t, [], given⟩ ⟨s, [], given'⟩ := by
    intro calls
    induction calls with
    | nil =>
      intro t given h
      cases h
      exact ⟨given, .refl⟩
    | cons c calls ih =>
      intro t given h
      rw [List.foldlM_cons] at h
      obtain ⟨u, hu, h⟩ := Option.bind_eq_some_iff.1 h
      obtain ⟨given', hcall⟩ := moves_call random inputs handler hu given
      obtain ⟨given'', hrest⟩ := ih u given' h
      exact ⟨given'', hcall.trans hrest⟩
  obtain ⟨given', hrest⟩ := hcalls calls _ given h
  exact ⟨given', hbuild.trans hrest⟩

end Simulator

end Simulation

end Suprime
