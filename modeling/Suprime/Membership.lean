import Mathlib.Data.String.Basic
import Mathlib.Tactic.Linarith
import Suprime.Run
import Suprime.Peers

namespace Suprime
set_option autoImplicit true

/-- The messages of membership and failure detection. -/
inductive MemberBody
  | JOIN (address : String) (heartbeat : ℤ)
  | WELCOME (membership : List PeerRecord)
  | GOSSIP (membership : List PeerRecord)
  | PING (subject ackTo ackAddr : String)
  | PING_REQ (subject subjectAddr ackTo ackAddr : String)
  | ACK (subject : String)
  deriving DecidableEq

def MemberBody.membership : MemberBody → List PeerRecord
  | .WELCOME membership => membership
  | .GOSSIP membership => membership
  | _ => []

structure MemberMessage where
  src : String
  body : MemberBody
  deriving DecidableEq

inductive ProbePhase
  | direct
  | indirect
  deriving DecidableEq

structure Probe where
  target : String
  sentAt : ℚ
  phase : ProbePhase
  deriving DecidableEq

/-- A node's part in membership. The last three fields are history: the latest reading of its
clock, every heartbeat that it recorded for a peer, and when it heard news of a peer, that is a
message of the peer itself or a relayed heartbeat above all that it had recorded. -/
structure Member where
  id : String
  address : String
  heartbeat : ℤ
  peers : PeerTable
  probe : Option Probe
  probeTimeout : ℚ
  indirectK : ℕ
  now : ℚ
  recorded : List (String × ℤ)
  heard : List (String × ℚ)

namespace Member

/-- A heartbeat above everything recorded for its peer. -/
def Fresh (m : Member) (e : PeerRecord) : Prop :=
  ∀ r ∈ m.recorded, r.1 = e.nodeId → r.2 < e.heartbeat

instance (m : Member) (e : PeerRecord) : Decidable (m.Fresh e) := List.decidableBAll _ _

/-- Merge a record that came in a message of `src`. -/
def observe (m : Member) (src : String) (clock : ℚ) (e : PeerRecord) : Member :=
  { m with
    peers := (m.peers.merge clock e).1
    now := clock
    recorded := if (m.peers.merge clock e).2 then m.recorded ++ [(e.nodeId, e.heartbeat)]
      else m.recorded
    heard := if src = e.nodeId ∨ m.Fresh e then m.heard ++ [(e.nodeId, clock)] else m.heard }

/-- `apply_digest`, one record after the other. -/
def applyDigest (m : Member) (src : String) (elapsed : ℕ → ℚ≥0) : List PeerRecord → Member
  | [] => m
  | e :: es =>
    (m.observe src (m.now + elapsed 0) e).applyDigest src (fun i => elapsed (i + 1)) es

/-- `build_digest`: the table and the node itself. -/
def buildDigest (m : Member) : List PeerRecord :=
  m.peers.digest ++ [⟨m.id, m.address, m.heartbeat⟩]

def handleJoin (m : Member) (src : String) (elapsed : ℕ → ℚ≥0) (address : String)
    (heartbeat : ℤ) : Member × List MemberMessage :=
  if address = "" then (m, [])
  else
    let m' := m.observe src (m.now + elapsed 0) ⟨src, address, heartbeat⟩
    (m', [⟨m.id, .WELCOME m'.buildDigest⟩])

def handleAck (m : Member) (src : String) (elapsed : ℕ → ℚ≥0) (subject : String) : Member :=
  if subject = "" then m
  else
    let clock := m.now + elapsed 0
    { m with
      peers := (m.peers.refresh clock subject).1
      probe := m.probe.filter (fun p => p.target ≠ subject)
      now := clock
      heard := if src = subject then m.heard ++ [(subject, clock)] else m.heard }

/-- `_route`: the node after a message and the messages that it sends. -/
def route (m : Member) (elapsed : ℕ → ℚ≥0) (msg : MemberMessage) :
    Member × List MemberMessage :=
  match msg.body with
  | .GOSSIP membership => (m.applyDigest msg.src elapsed membership, [])
  | .WELCOME membership => (m.applyDigest msg.src elapsed membership, [])
  | .JOIN address heartbeat => m.handleJoin msg.src elapsed address heartbeat
  | .PING _ _ ackAddr => (m, if ackAddr = "" then [] else [⟨m.id, .ACK m.id⟩])
  | .PING_REQ subject _ ackTo ackAddr => (m, [⟨m.id, .PING subject ackTo ackAddr⟩])
  | .ACK subject => (m.handleAck msg.src elapsed subject, [])

/-- The start of a round: bump the heartbeat and age the table. -/
def tick (m : Member) (elapsed : ℚ≥0) : Member :=
  { m with
    heartbeat := m.heartbeat + 1
    now := m.now + elapsed
    peers := m.peers.tick (m.now + elapsed) }

def sendPingReqs (m : Member) (target : String) : List MemberMessage :=
  match m.peers.get target with
  | none => []
  | some peer =>
    let helpers := m.peers.alive.filter (fun p => p.nodeId ≠ target)
    List.replicate (min m.indirectK helpers.length)
      ⟨m.id, .PING_REQ target peer.address m.id m.address⟩

/-- The part of `_swim_probe` that advances the probe in flight. -/
def advanceProbe (m : Member) (clock : ℚ) : Option Probe × List MemberMessage :=
  match m.probe with
  | none => (none, [])
  | some probe =>
    if (m.peers.get probe.target).isNone then (none, [])
    else if clock - probe.sentAt ≥ m.probeTimeout then
      match probe.phase with
      | .direct => (some { probe with phase := .indirect, sentAt := clock },
          m.sendPingReqs probe.target)
      | .indirect => (none, [])
    else (some probe, [])

/-- `_swim_probe`, where `pick` is the choice of the random generator among the peers. -/
def swimProbe (m : Member) (elapsed : ℕ → ℚ≥0) (pick : ℕ) :
    Option (Member × List MemberMessage) :=
  let clock := m.now + elapsed 0
  match m.advanceProbe clock with
  | (some probe, out) => some ({ m with probe := some probe, now := clock }, out)
  | (none, out) =>
    if m.peers.all = [] then some ({ m with probe := none, now := clock }, out)
    else do
      let target ← m.peers.all[pick]?
      some ({ m with
        probe := some ⟨target.nodeId, clock + elapsed 1, .direct⟩
        now := clock + elapsed 1 },
        out ++ [⟨m.id, .PING target.nodeId m.id m.address⟩])

end Member

/-- The nodes of a swarm and every message that was ever sent. The network may deliver any of
them to anyone, at any time, again or never. -/
structure MemberSwarm where
  node : String → Member
  sent : List MemberMessage

inductive MemberAction
  | bootstrap (n : String)
  | tick (n : String) (elapsed : ℚ≥0)
  | swimProbe (n : String) (elapsed : ℕ → ℚ≥0) (pick : ℕ)
  | gossipOnce (n : String)
  | deliver (n : String) (i : ℕ) (elapsed : ℕ → ℚ≥0)

/-- How a node is set up. -/
structure MemberConfig where
  address : String
  suspectAfter : ℚ
  deadAfter : ℚ
  probeTimeout : ℚ
  indirectK : ℕ
  startedAt : ℚ

namespace MemberSwarm

def init (config : String → MemberConfig) : MemberSwarm where
  node n :=
    let c := config n
    ⟨n, c.address, 0, .init n c.suspectAfter c.deadAfter, none, c.probeTimeout, c.indirectK,
      c.startedAt, [], []⟩
  sent := []

def became (s : MemberSwarm) (n : String) (r : Member × List MemberMessage) : MemberSwarm :=
  ⟨Function.update s.node n r.1, s.sent ++ r.2⟩

def step (s : MemberSwarm) : MemberAction → Option MemberSwarm
  | .bootstrap n =>
    let m := s.node n
    some (s.became n (m, [⟨m.id, .JOIN m.address m.heartbeat⟩]))
  | .tick n elapsed => some (s.became n ((s.node n).tick elapsed, []))
  | .swimProbe n elapsed pick => do
    let r ← (s.node n).swimProbe elapsed pick
    some (s.became n r)
  | .gossipOnce n =>
    let m := s.node n
    if m.peers.all = [] then some s
    else some (s.became n (m, [⟨m.id, .GOSSIP m.buildDigest⟩]))
  | .deliver n i elapsed => do
    let msg ← s.sent[i]?
    some (s.became n ((s.node n).route elapsed msg))

end MemberSwarm

namespace Member

/-- A relayed record that the table takes in, although as much was recorded for the peer. -/
def StaleRelay (m : Member) (src : String) (e : PeerRecord) : Prop :=
  src ≠ e.nodeId ∧ m.peers.Accepts e ∧ ¬ m.Fresh e

/-- No record of a digest is a stale relay when its turn comes. -/
def NoStaleRelay (m : Member) (src : String) (elapsed : ℕ → ℚ≥0) : List PeerRecord → Prop
  | [] => True
  | e :: es => ¬ m.StaleRelay src e ∧
    (m.observe src (m.now + elapsed 0) e).NoStaleRelay src (fun i => elapsed (i + 1)) es

instance (m : Member) (src : String) (e : PeerRecord) : Decidable (m.StaleRelay src e) :=
  inferInstanceAs (Decidable (_ ∧ _ ∧ _))

instance decidableNoStaleRelay (m : Member) (src : String) (elapsed : ℕ → ℚ≥0) :
    (l : List PeerRecord) → Decidable (m.NoStaleRelay src elapsed l)
  | [] => isTrue trivial
  | _ :: es => @instDecidableAnd _ _ inferInstance (decidableNoStaleRelay _ _ _ es)

/-- Every peer of the table was last updated by news of it. -/
def Ok (m : Member) : Prop :=
  ∀ k p, m.peers.get k = some p → (k, p.lastUpdate) ∈ m.heard ∧ p.lastUpdate ≤ m.now

theorem Ok.of_eq {m m' : Member} (h : m.Ok) (hp : m'.peers = m.peers) (hh : m'.heard = m.heard)
    (hn : m.now ≤ m'.now) : m'.Ok := by
  intro k p hk
  rw [hp] at hk
  obtain ⟨hheard, hle⟩ := h k p hk
  rw [hh]
  exact ⟨hheard, hle.trans hn⟩

theorem mem_heard_observe {m : Member} (h : x ∈ m.heard) :
    x ∈ (m.observe src clock e).heard := by
  unfold observe
  dsimp only
  split
  · exact List.mem_append_left _ h
  · exact h

theorem Ok.observe {m : Member} (h : m.Ok) (hs : ¬ m.StaleRelay src e) (hc : m.now ≤ clock) :
    (m.observe src clock e).Ok := by
  intro k p hk
  have hk' : (m.peers.merge clock e).1.get k = some p := hk
  rw [PeerTable.get_merge] at hk'
  split at hk'
  · rename_i hacc
    cases hk'
    refine ⟨?_, le_rfl⟩
    have hnews : src = e.nodeId ∨ m.Fresh e := by
      by_contra hn
      rw [not_or] at hn
      exact hs ⟨hn.1, hacc.2, hn.2⟩
    simp only [Member.observe, if_pos hnews, hacc.1]
    exact List.mem_append_right _ List.mem_cons_self
  · obtain ⟨hheard, hle⟩ := h k p hk'
    exact ⟨mem_heard_observe hheard, hle.trans hc⟩

theorem Ok.applyDigest {m : Member} (h : m.Ok) (hs : m.NoStaleRelay src elapsed l) :
    (m.applyDigest src elapsed l).Ok := by
  induction l generalizing m elapsed with
  | nil => exact h
  | cons e es ih => exact ih (h.observe hs.1 (le_elapsed _ _)) hs.2

theorem Ok.handleJoin {m : Member} (h : m.Ok) (src : String) (elapsed : ℕ → ℚ≥0)
    (address : String) (heartbeat : ℤ) : (m.handleJoin src elapsed address heartbeat).1.Ok := by
  unfold Member.handleJoin
  split
  · exact h
  · apply h.observe ?_ (le_elapsed _ _)
    intro hs
    exact hs.1 rfl

theorem Ok.handleAck {m : Member} (h : m.Ok) (elapsed : ℕ → ℚ≥0) (subject : String) :
    (m.handleAck subject elapsed subject).Ok := by
  unfold Member.handleAck
  split
  · exact h
  · intro k p hk
    have hk' : (m.peers.refresh (m.now + elapsed 0) subject).1.get k = some p := hk
    rw [PeerTable.get_refresh] at hk'
    dsimp only
    rw [if_pos rfl]
    by_cases hks : k = subject
    · rw [if_pos hks] at hk'
      obtain ⟨q, _, rfl⟩ := Option.map_eq_some_iff.1 hk'
      refine ⟨List.mem_append_right _ ?_, le_rfl⟩
      rw [hks]
      exact List.mem_cons_self
    · rw [if_neg hks] at hk'
      obtain ⟨hheard, hle⟩ := h k p hk'
      exact ⟨List.mem_append_left _ hheard, hle.trans (le_elapsed _ _)⟩

theorem Ok.tick {m : Member} (h : m.Ok) (elapsed : ℚ≥0) : (m.tick elapsed).Ok := by
  intro k p hk
  obtain ⟨q, hq, hu, _⟩ := PeerTable.of_get_tick hk
  obtain ⟨hheard, hle⟩ := h k q hq
  rw [hu] at hheard hle
  exact ⟨hheard, hle.trans (le_elapsed _ _)⟩

theorem swimProbe_spec {m : Member} (h : m.swimProbe elapsed pick = some (m', out)) :
    m'.peers = m.peers ∧ m'.heard = m.heard ∧ m.now ≤ m'.now ∧ m'.id = m.id ∧
      ∀ msg ∈ out, msg.body.membership = [] ∧ ∀ k, msg.body ≠ .ACK k := by
  have hout : ∀ msg ∈ (m.advanceProbe (m.now + elapsed 0)).2,
      msg.body.membership = [] ∧ ∀ k, msg.body ≠ .ACK k := by
    unfold advanceProbe
    split
    · simp
    · split
      · simp
      · split
        · split
          · unfold sendPingReqs
            split
            · simp
            · intro msg hm
              rw [List.eq_of_mem_replicate hm]
              exact ⟨rfl, fun k hk => by cases hk⟩
          · simp
        · simp
  have hle := le_elapsed m.now (elapsed 0)
  unfold swimProbe at h
  dsimp only at h
  split at h
  · rename_i probe out' hadv
    rw [hadv] at hout
    cases h
    exact ⟨rfl, rfl, hle, rfl, hout⟩
  · rename_i out' hadv
    rw [hadv] at hout
    split at h
    · cases h
      exact ⟨rfl, rfl, hle, rfl, hout⟩
    · obtain ⟨target, _, h⟩ := Option.bind_eq_some_iff.1 h
      cases h
      refine ⟨rfl, rfl, hle.trans (le_elapsed _ _), rfl, ?_⟩
      intro msg hm
      rcases List.mem_append.1 hm with hm | hm
      · exact hout msg hm
      · rw [List.mem_singleton.1 hm]
        exact ⟨rfl, fun k hk => by cases hk⟩

end Member

namespace MemberSwarm

/-- The tables are up to date with the news, and nobody acknowledges for somebody else. -/
structure Ok (s : MemberSwarm) : Prop where
  node : ∀ n, (s.node n).Ok
  ack : ∀ msg ∈ s.sent, ∀ k, msg.body = .ACK k → msg.src = k

/-- Nodes take in no stale relays. -/
def Meets (s : MemberSwarm) : MemberAction → Prop
  | .deliver n i elapsed =>
    ∀ msg ∈ s.sent[i]?, (s.node n).NoStaleRelay msg.src elapsed msg.body.membership
  | _ => True

instance (s : MemberSwarm) : (a : MemberAction) → Decidable (s.Meets a)
  | .deliver _ _ _ => inferInstanceAs (Decidable (∀ msg ∈ _, _))
  | .bootstrap _ => isTrue trivial
  | .tick _ _ => isTrue trivial
  | .swimProbe _ _ _ => isTrue trivial
  | .gossipOnce _ => isTrue trivial

theorem Ok.init (config : String → MemberConfig) : (MemberSwarm.init config).Ok where
  node n k p h := by cases h
  ack msg h := by cases h

theorem Ok.became {s : MemberSwarm} (h : s.Ok) (hm : r.1.Ok)
    (ha : ∀ msg ∈ r.2, ∀ k, msg.body = .ACK k → msg.src = k) : (s.became n r).Ok where
  node m := by
    by_cases hmn : m = n
    · subst hmn
      simpa [MemberSwarm.became] using hm
    · simpa [MemberSwarm.became, hmn] using h.node m
  ack msg hmsg k hk := by
    rcases List.mem_append.1 hmsg with hmsg | hmsg
    · exact h.ack msg hmsg k hk
    · exact ha msg hmsg k hk

theorem Ok.deliver {s : MemberSwarm} (h : s.Ok) (hm : s.Meets (.deliver n i elapsed))
    (hi : s.sent[i]? = some msg) : (s.became n ((s.node n).route elapsed msg)).Ok := by
  have hnode := h.node n
  have hm' := hm msg hi
  have hack := h.ack msg (List.mem_of_getElem? hi)
  obtain ⟨src, body⟩ := msg
  cases body with
  | JOIN address heartbeat =>
    apply h.became (hnode.handleJoin src elapsed address heartbeat)
    intro msg hmsg k hk
    simp only [Member.handleJoin] at hmsg
    split at hmsg
    · cases hmsg
    · rw [List.mem_singleton] at hmsg
      rw [hmsg] at hk
      cases hk
  | WELCOME l =>
    apply h.became (hnode.applyDigest hm')
    intro msg hmsg
    cases hmsg
  | GOSSIP l =>
    apply h.became (hnode.applyDigest hm')
    intro msg hmsg
    cases hmsg
  | PING subject ackTo ackAddr =>
    apply h.became hnode
    intro msg hmsg k hk
    simp only [Member.route] at hmsg
    split at hmsg
    · cases hmsg
    · rw [List.mem_singleton] at hmsg
      rw [hmsg] at hk ⊢
      cases hk
      rfl
  | PING_REQ subject subjectAddr ackTo ackAddr =>
    apply h.became hnode
    intro msg hmsg k hk
    rw [Member.route, List.mem_singleton] at hmsg
    rw [hmsg] at hk
    cases hk
  | ACK subject =>
    have hsrc : src = subject := hack subject rfl
    subst hsrc
    apply h.became (hnode.handleAck elapsed src)
    intro msg hmsg
    cases hmsg

theorem Ok.step {s : MemberSwarm} (h : s.Ok) (hm : s.Meets a) (hs : s.step a = some s') :
    s'.Ok := by
  cases a with
  | bootstrap n =>
    cases hs
    apply h.became (h.node n)
    intro msg hmsg k hk
    rw [List.mem_singleton] at hmsg
    rw [hmsg] at hk
    cases hk
  | tick n elapsed =>
    cases hs
    apply h.became ((h.node n).tick elapsed)
    intro msg hmsg
    cases hmsg
  | swimProbe n elapsed pick =>
    obtain ⟨⟨m, out⟩, hr, hs⟩ := Option.bind_eq_some_iff.1 hs
    cases hs
    obtain ⟨hp, hh, hn, _, hout⟩ := Member.swimProbe_spec hr
    apply h.became ((h.node n).of_eq hp hh hn)
    intro msg hmsg k hk
    exact absurd hk ((hout msg hmsg).2 k)
  | gossipOnce n =>
    simp only [MemberSwarm.step] at hs
    split at hs
    · cases hs
      exact h
    · cases hs
      apply h.became (h.node n)
      intro msg hmsg k hk
      rw [List.mem_singleton] at hmsg
      rw [hmsg] at hk
      cases hk
  | deliver n i elapsed =>
    obtain ⟨msg, hi, hs⟩ := Option.bind_eq_some_iff.1 hs
    cases hs
    exact h.deliver hm hi

theorem Ok.of_run {s : MemberSwarm} (h : Run MemberSwarm.step (MemberSwarm.init config) past s)
    (hm : ∀ p ∈ past, p.1.Meets p.2) : s.Ok :=
  h.invariant hm (Ok.init config) (fun _ _ _ hs hc hstep => hs.step hc hstep)

end MemberSwarm

/-- While no node takes in a relayed heartbeat that is not above all it had recorded, whoever
is in a table after a tick was heard of less than `dead_after` before it. -/
theorem no_zombie_members (h : Run MemberSwarm.step (MemberSwarm.init config) past s)
    (hm : ∀ p ∈ past, p.1.Meets p.2) (hs : s.step (.tick n elapsed) = some s')
    (hk : (s'.node n).peers.get k = some p) :
    ∃ since, (k, since) ∈ (s'.node n).heard ∧ since ≤ (s'.node n).now ∧
      (s'.node n).now - since < (s'.node n).peers.deadAfter := by
  have hok := MemberSwarm.Ok.of_run h hm
  cases hs
  simp only [MemberSwarm.became, Function.update_self, Member.tick] at hk ⊢
  obtain ⟨q, hq, hu, hlt⟩ := PeerTable.of_get_tick hk
  obtain ⟨hheard, hle⟩ := hok.node n k q hq
  rw [PeerTable.deadAfter_tick]
  rw [hu] at hheard hle
  exact ⟨p.lastUpdate, hheard, hle.trans (le_elapsed _ _), hlt⟩

def defaultConfig (n : String) : MemberConfig := ⟨n, 3, 6, 3 / 2, 2, 0⟩

/-- Let this much time pass before the first reading of the clock. -/
def after (d : ℚ≥0) : ℕ → ℚ≥0
  | 0 => d
  | _ + 1 => 0

theorem no_zombie_members_after_join :
    ∃ past s s', Run MemberSwarm.step (MemberSwarm.init defaultConfig) past s ∧
      s.step (.tick "a" 5) = some s' ∧ ((s'.node "a").peers.get "d").isSome ∧
      ∃ since, ("d", since) ∈ (s'.node "a").heard ∧ since ≤ (s'.node "a").now ∧
        (s'.node "a").now - since < (s'.node "a").peers.deadAfter := by
  obtain ⟨past, s, hr, hm, hs⟩ := exists_run_of_execWhere MemberSwarm.step MemberSwarm.Meets
    (MemberSwarm.init defaultConfig) [.bootstrap "d", .deliver "a" 0 (after 1)]
    (fun s => (s.step (.tick "a" 5)).map (fun s' => (s'.node "a").peers.get "d"))
    (some (some ⟨"d", "d", 0, .SUSPECT, 1⟩)) (by decide +kernel)
  obtain ⟨s', hs', hk⟩ := Option.map_eq_some_iff.1 hs
  exact ⟨past, s, s', hr, hs', by rw [hk]; rfl, no_zombie_members hr hm hs' hk⟩

/-- Nodes `d` and `b` join `a`, `b` learns of `d` 5 seconds later, `a` evicts `d` and hears of it
again from `b`. -/
def staggeredEviction : List MemberAction :=
  [.bootstrap "d", .bootstrap "b", .deliver "a" 0 (after 0), .deliver "a" 1 (after 0),
    .deliver "b" 3 (after 5), .tick "a" 6, .tick "b" (1 / 2), .gossipOnce "b",
    .deliver "a" 4 (after 0)]

/-- Node `a` keeps `d` after a tick, 6.5 seconds after it last heard news of `d`: it evicted `d`
and took it in again with the heartbeat that it had recorded before. -/
theorem relay_brings_dead_member_back :
    ∃ past s s', Run MemberSwarm.step (MemberSwarm.init defaultConfig) past s ∧
      s.step (.tick "a" (1 / 2)) = some s' ∧
      (s'.node "a").peers.get "d" = some ⟨"d", "d", 0, .ALIVE, 6⟩ ∧
      (s'.node "a").recorded = [("d", 0), ("b", 0), ("d", 0), ("b", 1)] ∧
      ¬ ∃ since, ("d", since) ∈ (s'.node "a").heard ∧ since ≤ (s'.node "a").now ∧
        (s'.node "a").now - since < (s'.node "a").peers.deadAfter := by
  obtain ⟨past, s, hr, hs⟩ := exists_run_of_exec MemberSwarm.step
    (MemberSwarm.init defaultConfig) staggeredEviction
    (fun s => (s.step (.tick "a" (1 / 2))).map (fun s' : MemberSwarm =>
      ((s'.node "a").peers.get "d",
      (s'.node "a").recorded, decide (∀ r ∈ (s'.node "a").heard,
        r.1 = "d" → (s'.node "a").peers.deadAfter ≤ (s'.node "a").now - r.2))))
    (some (some ⟨"d", "d", 0, .ALIVE, 6⟩, [("d", 0), ("b", 0), ("d", 0), ("b", 1)], true))
    (by decide +kernel)
  obtain ⟨s', hs', he⟩ := Option.map_eq_some_iff.1 hs
  simp only [Prod.mk.injEq, decide_eq_true_eq] at he
  obtain ⟨hget, hrec, hold⟩ := he
  refine ⟨past, s, s', hr, hs', hget, hrec, ?_⟩
  rintro ⟨since, hheard, _, hlt⟩
  exact absurd hlt (not_lt.2 (hold _ hheard rfl))

end Suprime
