import Mathlib.Data.Finset.Insert
import Mathlib.Data.Fintype.EquivFin
import Suprime.Membership

namespace Suprime
set_option autoImplicit true

def MemberMessage.records (msg : MemberMessage) : List PeerRecord :=
  match msg.body with
  | .JOIN address heartbeat => if address = "" then [] else [⟨msg.src, address, heartbeat⟩]
  | body => body.membership

namespace Member

def addressOf (m : Member) (k : String) : Option String := (m.peers.get k).map Peer.address

/-- The table maps a peer to an address and holds it for alive. -/
def Reaches (m : Member) (src address : String) : Prop :=
  ∃ p, m.peers.get src = some p ∧ p.address = address ∧ p.state = .ALIVE

/-- A JOIN is taken in, or it announces what is recorded: the peer is unknown or recorded with a
smaller heartbeat, or at this address and alive. -/
def Admits (m : Member) (src address : String) (heartbeat : ℤ) : Prop :=
  ∀ p, m.peers.get src = some p →
    p.heartbeat < heartbeat ∨ p.address = address ∧ p.state = .ALIVE

/-- A heartbeat is not above the one that is recorded when a JOIN has been handled. -/
def Outdates (m : Member) (src : String) (heartbeat h : ℤ) : Prop :=
  h ≤ heartbeat ∨ ∃ p, m.peers.get src = some p ∧ h ≤ p.heartbeat

/-- A node knows its own id and is not in its own table. -/
structure Owned (n : String) (m : Member) : Prop where
  id : m.id = n
  selfId : m.peers.selfId = n
  owner : m.peers.get n = none

end Member

/-- A node stops and starts anew, or a step of the swarm. -/
inductive RejoinAction
  | restart (n : String) (config : MemberConfig)
  | act (a : MemberAction)

namespace MemberSwarm

def restart (s : MemberSwarm) (n : String) (config : MemberConfig) : MemberSwarm :=
  { s with node := Function.update s.node n ((init fun _ => config).node n) }

def rejoinStep (s : MemberSwarm) : RejoinAction → Option MemberSwarm
  | .restart n config => some (s.restart n config)
  | .act a => s.step a

/-- A record that was in a message before the `j`-th one. -/
def Announced (s : MemberSwarm) (j : ℕ) (e : PeerRecord) : Prop :=
  ∃ msg ∈ s.sent.take j, e ∈ msg.records

/-- A node handles a digest that a third node has sent, and merging the record `e` of it leads
from `m` to `m'`. -/
def Relays (s : MemberSwarm) (n : String) (e : PeerRecord) (m m' : Member) : Prop :=
  ∃ msg ∈ s.sent, msg.src ≠ e.nodeId ∧ msg.src ≠ n ∧ ∃ pre post elapsed,
    msg.body.membership = pre ++ e :: post ∧
    m = (s.node n).applyDigest msg.src elapsed pre ∧
    m' = m.observe msg.src (m.now + elapsed pre.length) e

/-- A node reaches a peer at an address, and as long as it has the peer in its table no relayed
old record changes that address. -/
def Rejoins (s : MemberSwarm) (n src address : String) (old : PeerRecord → Prop) : Prop :=
  (s.node n).Reaches src address ∧
  ∀ past u, Run rejoinStep s past u →
    (∀ v, Visited past u v → ((v.node n).peers.get src).isSome) →
    ∀ e, old e → e.nodeId = src → ∀ m m', u.Relays n e m m' →
      m.addressOf src = some address → m'.addressOf src = some address

/-- The same for all time: no relayed old record ever leads to another address, not even when the
peer has left the table meanwhile. -/
def RejoinsForGood (s : MemberSwarm) (n src address : String) (old : PeerRecord → Prop) : Prop :=
  (s.node n).Reaches src address ∧
  ∀ past u, Run rejoinStep s past u →
    ∀ e, old e → e.nodeId = src → ∀ m m', u.Relays n e m m' →
      m'.addressOf src = m.addressOf src ∨ m'.addressOf src = some address

end MemberSwarm

namespace MemberSwarm

@[simp] theorem node_became_self (s : MemberSwarm) (n : String)
    (r : Member × List MemberMessage) : (s.became n r).node n = r.1 :=
  Function.update_self _ _ _

@[simp] theorem node_became_of_ne (s : MemberSwarm) (r : Member × List MemberMessage)
    (h : k ≠ n) : (s.became n r).node k = s.node k :=
  Function.update_of_ne h _ _

@[simp] theorem node_restart_self (s : MemberSwarm) (n : String) (config : MemberConfig) :
    (s.restart n config).node n = (init fun _ => config).node n :=
  Function.update_self _ _ _

@[simp] theorem node_restart_of_ne (s : MemberSwarm) (config : MemberConfig) (h : k ≠ n) :
    (s.restart n config).node k = s.node k :=
  Function.update_of_ne h _ _

end MemberSwarm

namespace Member

theorem gains_applyDigest (m : Member) (src : String) (elapsed : ℕ → ℚ≥0)
    (l : List PeerRecord) : m.peers.Gains (m.applyDigest src elapsed l).peers := by
  induction l generalizing m elapsed with
  | nil => exact .refl _
  | cons e es ih =>
    have hmerge := m.peers.gains_merge (m.now + elapsed 0) e
    exact hmerge.trans (ih (m.observe src (m.now + elapsed 0) e) _)

theorem id_applyDigest (m : Member) (src : String) (elapsed : ℕ → ℚ≥0) (l : List PeerRecord) :
    (m.applyDigest src elapsed l).id = m.id := by
  induction l generalizing m elapsed with
  | nil => rfl
  | cons e es ih => exact ih (m.observe src (m.now + elapsed 0) e) _

theorem Owned.evolve {m m' : Member} (h : m.Owned n) (hid : m'.id = m.id)
    (hp : m.peers.Evolves m'.peers) : m'.Owned n := by
  have howner := hp.owner
  rw [h.selfId] at howner
  exact ⟨hid.trans h.id, hp.selfId.trans h.selfId, howner h.owner⟩

theorem Owned.nodup_digest {m : Member} (h : m.Owned n) :
    (m.buildDigest.map PeerRecord.nodeId).Nodup := by
  have hkeys : m.peers.digest.map PeerRecord.nodeId = m.peers.peers.keys := by
    simp only [PeerTable.digest, Dict.values, Dict.keys, List.map_map]
    apply List.map_congr_left
    intro x hx
    exact m.peers.keyed x.1 x.2 (Dict.mem_items.1 hx)
  rw [buildDigest, List.map_append, hkeys]
  refine m.peers.peers.nodup.append (List.nodup_singleton _) ?_
  intro k hk hn
  rw [List.mem_singleton.1 hn, h.id] at hk
  exact Dict.get_eq_none_iff.1 h.owner hk

theorem get_applyDigest_of_not_mem (m : Member) (src : String) (elapsed : ℕ → ℚ≥0)
    {l : List PeerRecord} (hk : k ∉ l.map PeerRecord.nodeId) :
    (m.applyDigest src elapsed l).peers.get k = m.peers.get k := by
  induction l generalizing m elapsed with
  | nil => rfl
  | cons e es ih =>
    rw [List.map_cons, List.mem_cons, not_or] at hk
    rw [applyDigest, ih _ _ hk.2]
    change (m.peers.merge _ e).1.get k = _
    rw [PeerTable.get_merge, if_neg (fun h => hk.1 h.1)]

theorem get_applyDigest_of_mem {m : Member} (src : String) (elapsed : ℕ → ℚ≥0)
    {l : List PeerRecord} (hnd : (l.map PeerRecord.nodeId).Nodup) (he : e ∈ l)
    (hacc : m.peers.Accepts e) :
    ∃ p, (m.applyDigest src elapsed l).peers.get e.nodeId = some p ∧ p.toDict = e := by
  induction l generalizing m elapsed with
  | nil => cases he
  | cons x xs ih =>
    rw [List.map_cons, List.nodup_cons] at hnd
    rw [applyDigest]
    rcases List.mem_cons.1 he with rfl | he
    · rw [get_applyDigest_of_not_mem _ _ _ hnd.1]
      refine ⟨⟨e.nodeId, e.address, e.heartbeat, .ALIVE, m.now + elapsed 0⟩, ?_, rfl⟩
      change (m.peers.merge _ e).1.get e.nodeId = _
      rw [PeerTable.get_merge, if_pos ⟨rfl, hacc⟩]
    · have hne : e.nodeId ≠ x.nodeId := by
        intro hx
        rw [← hx] at hnd
        exact hnd.1 (List.mem_map_of_mem he)
      apply ih _ hnd.2 he
      constructor
      · change e.nodeId ≠ (m.peers.merge _ x).1.selfId
        rw [PeerTable.selfId_merge]
        exact hacc.1
      · intro p hp
        have hp' : (m.peers.merge (m.now + elapsed 0) x).1.get e.nodeId = some p := hp
        rw [PeerTable.get_merge, if_neg (fun h => hne h.1)] at hp'
        exact hacc.2 p hp'

theorem evolves_route (m : Member) (elapsed : ℕ → ℚ≥0) (msg : MemberMessage) :
    (m.route elapsed msg).1.id = m.id ∧ m.peers.Evolves (m.route elapsed msg).1.peers ∧
      ∀ out ∈ (m.route elapsed msg).2, out.body.membership = [] ∨
        out.body.membership = (m.route elapsed msg).1.buildDigest := by
  have hsame : m.peers.Evolves m.peers := (PeerTable.Gains.refl _).evolves
  obtain ⟨src, body⟩ := msg
  cases body with
  | JOIN address heartbeat =>
    simp only [route, handleJoin]
    split
    · exact ⟨rfl, hsame, fun out h => by cases h⟩
    · refine ⟨rfl, (m.peers.gains_merge _ _).evolves, ?_⟩
      intro out h
      rw [List.mem_singleton.1 h]
      exact .inr rfl
  | WELCOME l =>
    exact ⟨id_applyDigest m src elapsed l, (gains_applyDigest m src elapsed l).evolves,
      fun out h => by cases h⟩
  | GOSSIP l =>
    exact ⟨id_applyDigest m src elapsed l, (gains_applyDigest m src elapsed l).evolves,
      fun out h => by cases h⟩
  | PING subject ackTo ackAddr =>
    refine ⟨rfl, hsame, ?_⟩
    intro out h
    simp only [route] at h
    split at h
    · cases h
    · rw [List.mem_singleton.1 h]
      exact .inl rfl
  | PING_REQ subject subjectAddr ackTo ackAddr =>
    refine ⟨rfl, hsame, ?_⟩
    intro out h
    rw [List.mem_singleton.1 h]
    exact .inl rfl
  | ACK subject =>
    simp only [route, handleAck]
    split
    · exact ⟨rfl, hsame, fun out h => by cases h⟩
    · exact ⟨rfl, (m.peers.gains_refresh _ _).evolves, fun out h => by cases h⟩

end Member

namespace MemberSwarm

/-- What a step does: a node's table evolves, and what it sends has no records or its digest. -/
theorem step_cases {s s' : MemberSwarm} (h : s.step a = some s') :
    ∃ n m out, s' = s.became n (m, out) ∧ m.id = (s.node n).id ∧
      (s.node n).peers.Evolves m.peers ∧
      ∀ msg ∈ out, msg.body.membership = [] ∨ msg.body.membership = m.buildDigest := by
  have hsame : ∀ n, (s.node n).peers.Evolves (s.node n).peers :=
    fun n => (PeerTable.Gains.refl _).evolves
  cases a with
  | bootstrap n =>
    cases h
    refine ⟨n, _, _, rfl, rfl, hsame n, ?_⟩
    intro msg hm
    rw [List.mem_singleton.1 hm]
    exact .inl rfl
  | tick n elapsed =>
    cases h
    exact ⟨n, _, _, rfl, rfl, (s.node n).peers.evolves_tick _, fun msg hm => by cases hm⟩
  | swimProbe n elapsed pick =>
    obtain ⟨⟨m, out⟩, hr, h⟩ := Option.bind_eq_some_iff.1 h
    cases h
    obtain ⟨hp, _, _, hid, hout⟩ := Member.swimProbe_spec hr
    refine ⟨n, m, out, rfl, hid, ?_, fun msg hm => .inl (hout msg hm).1⟩
    rw [hp]
    exact hsame n
  | gossipOnce n =>
    simp only [MemberSwarm.step] at h
    split at h
    · cases h
      refine ⟨n, s.node n, [], ?_, rfl, hsame n, fun msg hm => by cases hm⟩
      rw [became, Function.update_eq_self, List.append_nil]
    · cases h
      refine ⟨n, _, _, rfl, rfl, hsame n, ?_⟩
      intro msg hm
      rw [List.mem_singleton.1 hm]
      exact .inr rfl
  | deliver n i elapsed =>
    obtain ⟨msg, _, h⟩ := Option.bind_eq_some_iff.1 h
    cases h
    obtain ⟨hid, hp, hout⟩ := (s.node n).evolves_route elapsed msg
    exact ⟨n, _, _, rfl, hid, hp, hout⟩

/-- Every node owns its table, no message names a node twice, and all but finitely many nodes
know nobody. -/
structure Orderly (s : MemberSwarm) : Prop where
  owned : ∀ n, (s.node n).Owned n
  distinct : ∀ msg ∈ s.sent, (msg.body.membership.map PeerRecord.nodeId).Nodup
  idle : ∃ S : Finset String, ∀ q ∉ S, ∀ k, (s.node q).peers.get k = none

theorem Orderly.init (config : String → MemberConfig) : (init config).Orderly where
  owned n := ⟨rfl, rfl, rfl⟩
  distinct msg h := by cases h
  idle := ⟨∅, fun q _ k => rfl⟩

theorem Orderly.restart {s : MemberSwarm} (h : s.Orderly) (n : String) (config : MemberConfig) :
    (s.restart n config).Orderly where
  owned m := by
    by_cases hmn : m = n
    · subst hmn
      rw [node_restart_self]
      exact (Orderly.init _).owned m
    · rw [node_restart_of_ne _ _ hmn]
      exact h.owned m
  distinct := h.distinct
  idle := by
    obtain ⟨S, hS⟩ := h.idle
    refine ⟨S, fun q hq k => ?_⟩
    by_cases hqn : q = n
    · subst hqn
      rw [node_restart_self]
      rfl
    · rw [node_restart_of_ne _ _ hqn]
      exact hS q hq k

theorem Orderly.step {s : MemberSwarm} (h : s.Orderly) (hs : s.step a = some s') :
    s'.Orderly := by
  obtain ⟨n, m, out, rfl, hid, hp, hout⟩ := step_cases hs
  have hm : m.Owned n := (h.owned n).evolve hid hp
  obtain ⟨S, hS⟩ := h.idle
  refine ⟨?_, ?_, insert n S, ?_⟩
  · intro k
    by_cases hkn : k = n
    · subst hkn
      rw [node_became_self]
      exact hm
    · rw [node_became_of_ne _ _ hkn]
      exact h.owned k
  · intro msg hmsg
    rcases List.mem_append.1 hmsg with hmsg | hmsg
    · exact h.distinct msg hmsg
    · cases hout msg hmsg with
      | inl hempty =>
        rw [hempty]
        exact List.nodup_nil
      | inr hdigest =>
        rw [hdigest]
        exact hm.nodup_digest
  · intro q hq k
    rw [Finset.mem_insert, not_or] at hq
    rw [node_became_of_ne _ _ hq.1]
    exact hS q hq.2 k

theorem Orderly.rejoinStep {s : MemberSwarm} (h : s.Orderly) (hs : s.rejoinStep a = some s') :
    s'.Orderly := by
  cases a with
  | restart n config =>
    cases hs
    exact h.restart n config
  | act a => exact h.step hs

theorem Orderly.of_run {s : MemberSwarm}
    (h : Run MemberSwarm.rejoinStep (MemberSwarm.init config) past s) : s.Orderly :=
  h.invariant (C := fun _ _ => True) (fun _ _ => trivial) (.init config)
    (fun _ _ _ hs _ hstep => hs.rejoinStep hstep)

theorem climbs_rejoinStep {s : MemberSwarm} (h : s.rejoinStep a = some s') (n : String) :
    (s.node n).peers.Climbs (s'.node n).peers := by
  cases a with
  | restart k config =>
    cases h
    by_cases hnk : n = k
    · subst hnk
      intro src p q _ hq
      rw [node_restart_self] at hq
      cases hq
    · rw [node_restart_of_ne _ _ hnk]
      exact .refl _
  | act a =>
    obtain ⟨k, m, out, rfl, _, hp, _⟩ := step_cases h
    by_cases hnk : n = k
    · subst hnk
      rw [node_became_self]
      exact hp.climbs
    · rw [node_became_of_ne _ _ hnk]
      exact .refl _

end MemberSwarm

namespace Member

theorem addressOf_observe (m : Member) (src : String) (clock : ℚ) (e : PeerRecord) :
    (m.observe src clock e).addressOf e.nodeId =
      if m.peers.Accepts e then some e.address else m.addressOf e.nodeId := by
  unfold addressOf
  change ((m.peers.merge clock e).1.get e.nodeId).map Peer.address = _
  rw [PeerTable.get_merge]
  by_cases hacc : m.peers.Accepts e
  · rw [if_pos ⟨rfl, hacc⟩, if_pos hacc]
    rfl
  · rw [if_neg (fun h => hacc h.2), if_neg hacc]

theorem Owned.learns {m : Member} (h : m.Owned q) (hnone : ∀ k, m.peers.get k = none)
    (hnd : (msg.body.membership.map PeerRecord.nodeId).Nodup) (he : e ∈ msg.records)
    (hq : e.nodeId ≠ q) (elapsed : ℕ → ℚ≥0) :
    ∃ p, (m.route elapsed msg).1.peers.get e.nodeId = some p ∧ p.toDict = e := by
  have hacc : m.peers.Accepts e := by
    refine ⟨by rw [h.selfId]; exact hq, fun p hp => ?_⟩
    rw [hnone] at hp
    cases hp
  obtain ⟨src, body⟩ := msg
  cases body with
  | JOIN address heartbeat =>
    by_cases ha : address = ""
    · simp [MemberMessage.records, ha] at he
    · simp only [MemberMessage.records, if_neg ha, List.mem_singleton] at he
      subst he
      simp only [route, handleJoin, if_neg ha]
      exact get_applyDigest_of_mem src elapsed (l := [⟨src, address, heartbeat⟩])
        (List.nodup_singleton src) List.mem_cons_self hacc
  | WELCOME l => exact get_applyDigest_of_mem src elapsed hnd he hacc
  | GOSSIP l => exact get_applyDigest_of_mem src elapsed hnd he hacc
  | PING subject ackTo ackAddr => cases he
  | PING_REQ subject subjectAddr ackTo ackAddr => cases he
  | ACK subject => cases he

end Member

namespace MemberSwarm

/-- Whatever was announced about a node can come to another one by a third one that knew nobody:
it receives the announcement and gossips. -/
theorem Orderly.exists_relay {s : MemberSwarm} (h : s.Orderly) (hm : msg ∈ s.sent)
    (he : e ∈ msg.records) (n : String) :
    ∃ past u, Run MemberSwarm.rejoinStep s past u ∧
      (∀ v, Visited past u v → v.node n = s.node n) ∧
      ∃ m src clock, m.peers.get e.nodeId = (s.node n).peers.get e.nodeId ∧
        m.peers.selfId = (s.node n).peers.selfId ∧ u.Relays n e m (m.observe src clock e) := by
  obtain ⟨S, hS⟩ := h.idle
  obtain ⟨q, hq⟩ := Infinite.exists_notMem_finset (insert n (insert e.nodeId S))
  simp only [Finset.mem_insert, not_or] at hq
  obtain ⟨hqn, hqe, hqS⟩ := hq
  obtain ⟨i, hi⟩ := List.mem_iff_getElem?.1 hm
  obtain ⟨p, hp, hpe⟩ :=
    (h.owned q).learns (hS q hqS) (h.distinct msg hm) he (Ne.symm hqe) (fun _ => 0)
  -- the third node receives the announcement
  have hstep₁ : s.rejoinStep (.act (.deliver q i fun _ => 0)) =
      some (s.became q ((s.node q).route (fun _ => 0) msg)) := by
    simp [MemberSwarm.rejoinStep, MemberSwarm.step, hi]
  generalize hs₁ : s.became q ((s.node q).route (fun _ => 0) msg) = s₁ at hstep₁
  have ho₁ : s₁.Orderly := h.rejoinStep hstep₁
  have hn₁ : s₁.node n = s.node n := by
    rw [← hs₁, node_became_of_ne _ _ (Ne.symm hqn)]
  have hq₁ : (s₁.node q).peers.get e.nodeId = some p := by
    rw [← hs₁, node_became_self]
    exact hp
  -- it gossips what it has learnt
  have hmem : p ∈ (s₁.node q).peers.all :=
    List.mem_map.2 ⟨(e.nodeId, p), Dict.mem_items.2 hq₁, rfl⟩
  have hstep₂ : s₁.rejoinStep (.act (.gossipOnce q)) =
      some (s₁.became q (s₁.node q, [⟨q, .GOSSIP (s₁.node q).buildDigest⟩])) := by
    simp [MemberSwarm.rejoinStep, MemberSwarm.step, List.ne_nil_of_mem hmem, (ho₁.owned q).id]
  generalize hs₂ : s₁.became q (s₁.node q, [⟨q, .GOSSIP (s₁.node q).buildDigest⟩]) = s₂
    at hstep₂
  have hn₂ : s₂.node n = s.node n := by
    rw [← hs₂, node_became_of_ne _ _ (Ne.symm hqn), hn₁]
  have hsent : ⟨q, .GOSSIP (s₁.node q).buildDigest⟩ ∈ s₂.sent := by
    rw [← hs₂]
    exact List.mem_append_right _ List.mem_cons_self
  have hdigest : e ∈ (s₁.node q).buildDigest :=
    List.mem_append_left _ (List.mem_map.2 ⟨p, hmem, hpe⟩)
  obtain ⟨pre, post, hsplit⟩ := List.append_of_mem hdigest
  have hpre : e.nodeId ∉ pre.map PeerRecord.nodeId := by
    have hnd := (ho₁.owned q).nodup_digest
    rw [hsplit, List.map_append, List.map_cons] at hnd
    exact fun hin => List.disjoint_of_nodup_append hnd hin List.mem_cons_self
  refine ⟨_, s₂, (Run.start.next hstep₁).next hstep₂, ?_,
    (s₂.node n).applyDigest q (fun _ => 0) pre, q,
    ((s₂.node n).applyDigest q (fun _ => 0) pre).now + (0 : ℚ≥0), ?_, ?_, ?_⟩
  · intro v hv
    rcases hv with rfl | ⟨a, ha⟩
    · exact hn₂
    · simp only [List.mem_cons, Prod.mk.injEq, List.not_mem_nil, or_false] at ha
      rcases ha with ⟨rfl, _⟩ | ⟨rfl, _⟩
      · exact hn₁
      · rfl
  · rw [Member.get_applyDigest_of_not_mem _ _ _ hpre, hn₂]
  · rw [(Member.gains_applyDigest _ _ _ _).evolves.selfId, hn₂]
  · exact ⟨_, hsent, hqe, hqn, pre, post, fun _ => 0, hsplit, rfl, rfl⟩

theorem Orderly.join_spec {s : MemberSwarm} (h : s.Orderly)
    (hj : s.sent[j]? = some ⟨src, .JOIN address heartbeat⟩) (hsrc : src ≠ n)
    (ha : address ≠ "") (hs : s.step (.deliver n j elapsed) = some s') :
    s.sent ⊆ s'.sent ∧ ∃ p, (s'.node n).peers.get src = some p ∧
      (p.address = address ∧ p.state = .ALIVE ↔ (s.node n).Admits src address heartbeat) ∧
      ∀ h, (s.node n).Outdates src heartbeat h ↔ h ≤ p.heartbeat := by
  simp only [MemberSwarm.step, hj, Option.bind_eq_bind, Option.bind_some, Option.some.injEq] at hs
  subst hs
  refine ⟨List.subset_append_left _ _, ?_⟩
  rw [node_became_self]
  simp only [Member.route, Member.handleJoin, if_neg ha, Member.observe, PeerTable.get_merge,
    true_and]
  by_cases hacc : (s.node n).peers.Accepts ⟨src, address, heartbeat⟩
  · rw [if_pos hacc]
    refine ⟨_, rfl, ?_, ?_⟩
    · exact iff_of_true ⟨rfl, rfl⟩ (fun p hp => .inl (hacc.2 p hp))
    · intro x
      constructor
      · rintro (hx | ⟨p, hp, hx⟩)
        · exact hx
        · exact hx.trans (hacc.2 p hp).le
      · exact .inl
  · rw [if_neg hacc]
    have hself : src ≠ (s.node n).peers.selfId := by
      rw [(h.owned n).selfId]
      exact hsrc
    obtain ⟨p, hp, hle⟩ : ∃ p, (s.node n).peers.get src = some p ∧ heartbeat ≤ p.heartbeat := by
      by_contra hnone
      simp only [not_exists, not_and, not_le] at hnone
      exact hacc ⟨hself, hnone⟩
    refine ⟨p, hp, ?_, ?_⟩
    · constructor
      · intro hreach q hq
        rw [hp] at hq
        cases hq
        exact .inr hreach
      · intro hadmits
        cases hadmits p hp with
        | inl hlt => exact absurd hlt (not_lt.2 hle)
        | inr hreach => exact hreach
    · intro x
      constructor
      · rintro (hx | ⟨q, hq, hx⟩)
        · exact hx.trans hle
        · rw [hp] at hq
          cases hq
          exact hx
      · exact fun hx => .inr ⟨p, hp, hx⟩

theorem exists_evicted (s : MemberSwarm) (n src : String) :
    ∃ elapsed, ∀ s', s.step (.tick n elapsed) = some s' → (s'.node n).peers.get src = none := by
  cases hk : (s.node n).peers.get src with
  | none =>
    refine ⟨0, fun s' hs => ?_⟩
    cases hs
    rw [node_became_self, Member.tick, PeerTable.get_tick, hk, Option.bind_none]
  | some p =>
    refine ⟨((s.node n).peers.deadAfter + p.lastUpdate - (s.node n).now).toNNRat, ?_⟩
    intro s' hs
    cases hs
    have hle := Rat.le_coe_toNNRat ((s.node n).peers.deadAfter + p.lastUpdate - (s.node n).now)
    rw [node_became_self, Member.tick, PeerTable.get_tick, hk, Option.bind_some, PeerTable.age,
      if_pos]
    linarith

/-- A JOIN makes a node reachable, as long as it stays listed, exactly when the table admits the
JOIN and no record from before it names another address with a heartbeat above the recorded one. -/
theorem Orderly.rejoins_iff {s : MemberSwarm} (h : s.Orderly)
    (hj : s.sent[j]? = some ⟨src, .JOIN address heartbeat⟩) (hsrc : src ≠ n)
    (ha : address ≠ "") (hs : s.step (.deliver n j elapsed) = some s') :
    s'.Rejoins n src address (s.Announced j) ↔
      (s.node n).Admits src address heartbeat ∧
      ∀ e, s.Announced j e → e.nodeId = src → e.address ≠ address →
        (s.node n).Outdates src heartbeat e.heartbeat := by
  obtain ⟨hsub, p, hp, hreach, hout⟩ := h.join_spec hj hsrc ha hs
  have ho' : s'.Orderly := h.step hs
  constructor
  · rintro ⟨⟨q, hq, hat⟩, hkeeps⟩
    rw [hp] at hq
    cases hq
    refine ⟨hreach.1 hat, ?_⟩
    rintro e ⟨msg, hmsg, he⟩ rfl hother
    by_contra hnot
    rw [hout, not_le] at hnot
    obtain ⟨past, u, hr, hsame, m, q, clock, hget, hself, hrelay⟩ :=
      ho'.exists_relay (hsub (List.mem_of_mem_take hmsg)) he n
    rw [hp] at hget
    have haddress : m.addressOf e.nodeId = some address := by
      rw [Member.addressOf, hget, Option.map_some, hat.1]
    have hlisted : ∀ v, Visited past u v → ((v.node n).peers.get e.nodeId).isSome := by
      intro v hv
      rw [hsame v hv, hp]
      rfl
    have hkept := hkeeps past u hr hlisted e ⟨msg, hmsg, he⟩ rfl _ _ hrelay haddress
    have hacc : m.peers.Accepts e := by
      refine ⟨?_, fun r hr => ?_⟩
      · rw [hself, (ho'.owned n).selfId]
        exact hsrc
      · rw [hget] at hr
        cases hr
        exact hnot
    rw [Member.addressOf_observe, if_pos hacc] at hkept
    exact hother (Option.some.inj hkept)
  · rintro ⟨hadmits, holds⟩
    refine ⟨⟨p, hp, hreach.2 hadmits⟩, ?_⟩
    rintro past u hr hlisted e hold rfl m m' ⟨msg, _, _, _, pre, post, elapsed, _, rfl, rfl⟩ haddr
    rw [Member.addressOf_observe]
    split
    · rename_i hacc
      by_contra hother
      have hle := (hout _).1 (holds e hold rfl (fun he => hother (congrArg some he)))
      -- the recorded heartbeat has only grown since the JOIN
      obtain ⟨q, hq⟩ := Option.isSome_iff_exists.1 (hlisted u (.inl rfl))
      have hgrown : p.heartbeat ≤ q.heartbeat :=
        hr.heartbeat_le (fun s => (s.node n).peers)
          (fun _ _ _ hstep => climbs_rejoinStep hstep n) hlisted hp hq
      have hgains := (u.node n).gains_applyDigest msg.src elapsed pre
      obtain ⟨r, hr'⟩ := Option.isSome_iff_exists.1 (hgains.keeps _ (hlisted u (.inl rfl)))
      have hlast := hgains.evolves.climbs _ q r hq hr'
      exact absurd (hacc.2 r hr') (not_lt.2 (hle.trans (hgrown.trans hlast)))
    · exact haddr

/-- It makes the node reachable for good exactly when the table admits the JOIN and no record
from before it names another address. -/
theorem Orderly.rejoinsForGood_iff {s : MemberSwarm} (h : s.Orderly)
    (hj : s.sent[j]? = some ⟨src, .JOIN address heartbeat⟩) (hsrc : src ≠ n)
    (ha : address ≠ "") (hs : s.step (.deliver n j elapsed) = some s') :
    s'.RejoinsForGood n src address (s.Announced j) ↔
      (s.node n).Admits src address heartbeat ∧
      ∀ e, s.Announced j e → e.nodeId = src → e.address = address := by
  obtain ⟨hsub, p, hp, hreach, _⟩ := h.join_spec hj hsrc ha hs
  have ho' : s'.Orderly := h.step hs
  constructor
  · rintro ⟨⟨q, hq, hat⟩, hkeeps⟩
    rw [hp] at hq
    cases hq
    refine ⟨hreach.1 hat, ?_⟩
    rintro e ⟨msg, hmsg, he⟩ rfl
    by_contra hother
    obtain ⟨silence, hevict⟩ := s'.exists_evicted n e.nodeId
    have htick : s'.rejoinStep (.act (.tick n silence)) =
        some (s'.became n ((s'.node n).tick silence, [])) := rfl
    have hgone := hevict _ htick
    have ho'' := ho'.rejoinStep htick
    obtain ⟨past, u, hr, _, m, q, clock, hget, hself, hrelay⟩ :=
      ho''.exists_relay (List.mem_append_left _ (hsub (List.mem_of_mem_take hmsg))) he n
    rw [hgone] at hget
    have hacc : m.peers.Accepts e := by
      refine ⟨?_, fun r hr => ?_⟩
      · rw [hself, (ho''.owned n).selfId]
        exact hsrc
      · rw [hget] at hr
        cases hr
    have hkept := hkeeps _ u ((Run.start.next htick).append hr) e ⟨msg, hmsg, he⟩ rfl _ _ hrelay
    rw [Member.addressOf_observe, if_pos hacc, Member.addressOf, hget] at hkept
    cases hkept with
    | inl hnone => cases hnone
    | inr heq => exact hother (Option.some.inj heq)
  · rintro ⟨hadmits, holds⟩
    refine ⟨⟨p, hp, hreach.2 hadmits⟩, ?_⟩
    rintro past u _ e hold rfl m m' ⟨msg, _, _, _, pre, post, elapsed, _, rfl, rfl⟩
    rw [Member.addressOf_observe, holds e hold rfl]
    split
    · exact .inr rfl
    · exact .inl rfl

/-- When a JOIN makes its sender reachable at the address that it announces, and keeps it so
against older records. -/
theorem join_makes_reachable_iff
    (h : Run MemberSwarm.rejoinStep (MemberSwarm.init config) past s)
    (hj : s.sent[j]? = some ⟨src, .JOIN address heartbeat⟩) (hsrc : src ≠ n)
    (ha : address ≠ "") (hs : s.step (.deliver n j elapsed) = some s') :
    (s'.Rejoins n src address (s.Announced j) ↔
      (s.node n).Admits src address heartbeat ∧
      ∀ e, s.Announced j e → e.nodeId = src → e.address ≠ address →
        (s.node n).Outdates src heartbeat e.heartbeat) ∧
    (s'.RejoinsForGood n src address (s.Announced j) ↔
      (s.node n).Admits src address heartbeat ∧
      ∀ e, s.Announced j e → e.nodeId = src → e.address = address) := by
  have ho := Orderly.of_run h
  exact ⟨ho.rejoins_iff hj hsrc ha hs, ho.rejoinsForGood_iff hj hsrc ha hs⟩

/-- Node `d` joins `a`, restarts at another address and joins again after some ticks. -/
def movedNode (ticks : ℕ) : List RejoinAction :=
  [.act (.bootstrap "d"), .act (.deliver "a" 0 (after 0)), .restart "d" ⟨"d2", 3, 6, 3 / 2, 2, 0⟩]
    ++ List.replicate ticks (.act (.tick "d" 1)) ++ [.act (.bootstrap "d")]

theorem join_makes_reachable_iff_of_tick : ∃ past s s',
    Run MemberSwarm.rejoinStep (MemberSwarm.init defaultConfig) past s ∧
    s.sent[2]? = some ⟨"d", .JOIN "d2" 1⟩ ∧ s.step (.deliver "a" 2 (after 1)) = some s' ∧
    (s'.node "a").peers.get "d" = some ⟨"d", "d2", 1, .ALIVE, 1⟩ ∧
    (s'.Rejoins "a" "d" "d2" (s.Announced 2) ↔
      (s.node "a").Admits "d" "d2" 1 ∧
      ∀ e, s.Announced 2 e → e.nodeId = "d" → e.address ≠ "d2" →
        (s.node "a").Outdates "d" 1 e.heartbeat) ∧
    (s'.RejoinsForGood "a" "d" "d2" (s.Announced 2) ↔
      (s.node "a").Admits "d" "d2" 1 ∧
      ∀ e, s.Announced 2 e → e.nodeId = "d" → e.address = "d2") := by
  obtain ⟨past, s, hr, he⟩ := exists_run_of_exec MemberSwarm.rejoinStep
    (MemberSwarm.init defaultConfig) (movedNode 1)
    (fun s => (s.sent[2]?, (s.step (.deliver "a" 2 (after 1))).map
      (fun s' : MemberSwarm => (s'.node "a").peers.get "d")))
    (some ⟨"d", .JOIN "d2" 1⟩, some (some ⟨"d", "d2", 1, .ALIVE, 1⟩)) (by decide +kernel)
  obtain ⟨hj, hget⟩ := Prod.mk.inj he
  obtain ⟨s', hs, hget⟩ := Option.map_eq_some_iff.1 hget
  exact ⟨past, s, s', hr, hj, hs, hget,
    join_makes_reachable_iff hr hj (by decide) (by decide) hs⟩

/-- Node `a` keeps the old address of a restarted node, whose JOIN has the heartbeat 0 again. -/
theorem restarted_node_stays_unreachable : ∃ past s s',
    Run MemberSwarm.rejoinStep (MemberSwarm.init defaultConfig) past s ∧
    s.sent[2]? = some ⟨"d", .JOIN "d2" 0⟩ ∧ s.step (.deliver "a" 2 (after 1)) = some s' ∧
    (s'.node "a").peers.get "d" = some ⟨"d", "d", 0, .ALIVE, 0⟩ ∧
    ¬ s'.Rejoins "a" "d" "d2" (s.Announced 2) := by
  obtain ⟨past, s, hr, he⟩ := exists_run_of_exec MemberSwarm.rejoinStep
    (MemberSwarm.init defaultConfig) (movedNode 0)
    (fun s => (s.sent[2]?, (s.step (.deliver "a" 2 (after 1))).map
      (fun s' : MemberSwarm => (s'.node "a").peers.get "d")))
    (some ⟨"d", .JOIN "d2" 0⟩, some (some ⟨"d", "d", 0, .ALIVE, 0⟩)) (by decide +kernel)
  obtain ⟨hj, hget⟩ := Prod.mk.inj he
  obtain ⟨s', hs, hget⟩ := Option.map_eq_some_iff.1 hget
  refine ⟨past, s, s', hr, hj, hs, hget, ?_⟩
  rintro ⟨⟨p, hp, haddress, _⟩, _⟩
  rw [hget] at hp
  cases hp
  exact absurd haddress (by decide)

end MemberSwarm

end Suprime
