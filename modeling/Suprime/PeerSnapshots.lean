import Suprime.Rejoin

namespace Suprime
set_option autoImplicit true

/-- The node that may write its own address and heartbeat into messages in a step. -/
def RejoinAction.speaker : RejoinAction → Option String
  | .act (.bootstrap n) => some n
  | .act (.swimProbe n _ _) => some n
  | .act (.gossipOnce n) => some n
  | .act (.deliver n _ _) => some n
  | .act (.tick _ _) => none
  | .restart _ _ => none

/-- A record says what its node was at a step in which that node spoke. -/
def PeerSnapshot (past : List (MemberSwarm × RejoinAction)) (e : PeerRecord) : Prop :=
  ∃ p ∈ past, p.2.speaker = some e.nodeId ∧ e.address = (p.1.node e.nodeId).address ∧
    e.heartbeat = (p.1.node e.nodeId).heartbeat

def SpokeAt (past : List (MemberSwarm × RejoinAction)) (nodeId address : String) : Prop :=
  ∃ heartbeat, PeerSnapshot past ⟨nodeId, address, heartbeat⟩

/-- The records of a message are snapshots, its addresses are addresses of the nodes it names,
and nobody acknowledges for somebody else. -/
def MemberMessage.Backed (past : List (MemberSwarm × RejoinAction)) (msg : MemberMessage) : Prop :=
  (∃ address, SpokeAt past msg.src address) ∧ (∀ e ∈ msg.records, PeerSnapshot past e) ∧
  match msg.body with
  | .PING subject ackTo ackAddr =>
    (∃ address, SpokeAt past subject address) ∧ SpokeAt past ackTo ackAddr
  | .PING_REQ subject subjectAddr ackTo ackAddr =>
    SpokeAt past subject subjectAddr ∧ SpokeAt past ackTo ackAddr
  | .ACK subject => subject = msg.src
  | _ => True

def Member.Backed (past : List (MemberSwarm × RejoinAction)) (m : Member) : Prop :=
  ∀ k p, m.peers.get k = some p → PeerSnapshot past p.toDict

theorem PeerSnapshot.mono (h : PeerSnapshot past e) (hsub : past ⊆ past') :
    PeerSnapshot past' e := by
  obtain ⟨p, hp, hspeaks, haddress, hheartbeat⟩ := h
  exact ⟨p, hsub hp, hspeaks, haddress, hheartbeat⟩

theorem SpokeAt.mono (h : SpokeAt past k address) (hsub : past ⊆ past') :
    SpokeAt past' k address := by
  obtain ⟨heartbeat, h⟩ := h
  exact ⟨heartbeat, h.mono hsub⟩

theorem MemberMessage.Backed.mono {msg : MemberMessage} (h : msg.Backed past)
    (hsub : past ⊆ past') : msg.Backed past' := by
  obtain ⟨⟨address, hsrc⟩, hrecords, hbody⟩ := h
  refine ⟨⟨address, hsrc.mono hsub⟩, fun e he => (hrecords e he).mono hsub, ?_⟩
  obtain ⟨src, body⟩ := msg
  cases body with
  | JOIN address heartbeat => trivial
  | WELCOME l => trivial
  | GOSSIP l => trivial
  | PING subject ackTo ackAddr =>
    obtain ⟨⟨address, hsubject⟩, hack⟩ := hbody
    exact ⟨⟨address, hsubject.mono hsub⟩, hack.mono hsub⟩
  | PING_REQ subject subjectAddr ackTo ackAddr => exact ⟨hbody.1.mono hsub, hbody.2.mono hsub⟩
  | ACK subject => exact hbody

namespace Member

theorem Backed.mono {m : Member} (h : m.Backed past) (hsub : past ⊆ past') : m.Backed past' :=
  fun k p hk => (h k p hk).mono hsub

theorem Backed.observe {m : Member} (h : m.Backed past) (he : PeerSnapshot past e) :
    (m.observe src clock e).Backed past := by
  intro k p hk
  have hk' : (m.peers.merge clock e).1.get k = some p := hk
  rw [PeerTable.get_merge] at hk'
  split at hk'
  · cases hk'
    exact he
  · exact h k p hk'

theorem Backed.applyDigest {m : Member} (h : m.Backed past) (hl : ∀ e ∈ l, PeerSnapshot past e) :
    (m.applyDigest src elapsed l).Backed past := by
  induction l generalizing m elapsed with
  | nil => exact h
  | cons e es ih =>
    have he := hl e List.mem_cons_self
    exact ih (h.observe he) (fun x hx => hl x (List.mem_cons_of_mem _ hx))

theorem Backed.handleAck {m : Member} (h : m.Backed past) (src : String) (elapsed : ℕ → ℚ≥0)
    (subject : String) : (m.handleAck src elapsed subject).Backed past := by
  unfold Member.handleAck
  split
  · exact h
  · intro k p hk
    have hk' : (m.peers.refresh (m.now + elapsed 0) subject).1.get k = some p := hk
    rw [PeerTable.get_refresh] at hk'
    split at hk'
    · obtain ⟨q, hq, rfl⟩ := Option.map_eq_some_iff.1 hk'
      exact h k q hq
    · exact h k p hk'

theorem Backed.tick {m : Member} (h : m.Backed past) (elapsed : ℚ≥0) :
    (m.tick elapsed).Backed past := by
  intro k p hk
  have hk' : (m.peers.tick (m.now + elapsed)).get k = some p := hk
  rw [PeerTable.get_tick] at hk'
  obtain ⟨q, hq, hage⟩ := Option.bind_eq_some_iff.1 hk'
  have hsame : p.toDict = q.toDict := by
    unfold PeerTable.age at hage
    split at hage
    · cases hage
    · split at hage <;>
      · cases hage
        rfl
  rw [hsame]
  exact h k q hq

theorem Backed.buildDigest {m : Member} (h : m.Backed past)
    (hself : PeerSnapshot past ⟨m.id, m.address, m.heartbeat⟩) :
    ∀ e ∈ m.buildDigest, PeerSnapshot past e := by
  intro e he
  rcases List.mem_append.1 he with he | he
  · obtain ⟨p, hp, rfl⟩ := List.mem_map.1 he
    obtain ⟨x, hx, rfl⟩ := List.mem_map.1 hp
    exact h x.1 x.2 (Dict.mem_items.1 hx)
  · rw [List.mem_singleton.1 he]
    exact hself

theorem Backed.spokeAt {m : Member} (h : m.Backed past) (hk : m.peers.get k = some p) :
    SpokeAt past k p.address := by
  have hsnapshot := h k p hk
  have hid := m.peers.keyed k p hk
  rw [← hid]
  exact ⟨p.heartbeat, hsnapshot⟩

theorem address_applyDigest (m : Member) (src : String) (elapsed : ℕ → ℚ≥0)
    (l : List PeerRecord) :
    (m.applyDigest src elapsed l).address = m.address ∧
      (m.applyDigest src elapsed l).heartbeat = m.heartbeat := by
  induction l generalizing m elapsed with
  | nil => exact ⟨rfl, rfl⟩
  | cons e es ih => exact ih (m.observe src (m.now + elapsed 0) e) _

theorem address_route (m : Member) (elapsed : ℕ → ℚ≥0) (msg : MemberMessage) :
    (m.route elapsed msg).1.address = m.address ∧
      (m.route elapsed msg).1.heartbeat = m.heartbeat := by
  obtain ⟨src, body⟩ := msg
  cases body with
  | JOIN address heartbeat =>
    simp only [route, handleJoin]
    split <;> exact ⟨rfl, rfl⟩
  | WELCOME l => exact address_applyDigest m src elapsed l
  | GOSSIP l => exact address_applyDigest m src elapsed l
  | PING subject ackTo ackAddr => exact ⟨rfl, rfl⟩
  | PING_REQ subject subjectAddr ackTo ackAddr => exact ⟨rfl, rfl⟩
  | ACK subject =>
    simp only [route, handleAck]
    split <;> exact ⟨rfl, rfl⟩

theorem Backed.route {m : Member} (h : m.Backed past) (hmsg : msg.Backed past)
    (hself : PeerSnapshot past ⟨m.id, m.address, m.heartbeat⟩) :
    (m.route elapsed msg).1.Backed past ∧ ∀ out ∈ (m.route elapsed msg).2, out.Backed past := by
  have hspoke : ∃ address, SpokeAt past m.id address := ⟨_, _, hself⟩
  obtain ⟨src, body⟩ := msg
  obtain ⟨hsrc, hrecords, hbody⟩ := hmsg
  cases body with
  | JOIN address heartbeat =>
    simp only [Member.route, handleJoin]
    by_cases ha : address = ""
    · rw [if_pos ha]
      exact ⟨h, fun out hout => by cases hout⟩
    · rw [if_neg ha]
      have hjoin : PeerSnapshot past ⟨src, address, heartbeat⟩ := by
        apply hrecords
        simp [MemberMessage.records, ha]
      have hm : (m.observe src (m.now + elapsed 0) ⟨src, address, heartbeat⟩).Backed past :=
        h.observe hjoin
      refine ⟨hm, fun out hout => ?_⟩
      rw [List.mem_singleton.1 hout]
      exact ⟨hspoke, hm.buildDigest hself, trivial⟩
  | WELCOME l => exact ⟨h.applyDigest hrecords, fun out hout => by cases hout⟩
  | GOSSIP l => exact ⟨h.applyDigest hrecords, fun out hout => by cases hout⟩
  | PING subject ackTo ackAddr =>
    refine ⟨h, fun out hout => ?_⟩
    simp only [Member.route] at hout
    split at hout
    · cases hout
    · rw [List.mem_singleton.1 hout]
      exact ⟨hspoke, fun e he => (by cases he), rfl⟩
  | PING_REQ subject subjectAddr ackTo ackAddr =>
    obtain ⟨hsubject, hack⟩ := hbody
    refine ⟨h, fun out hout => ?_⟩
    rw [List.mem_singleton.1 hout]
    exact ⟨hspoke, fun e he => (by cases he), ⟨_, hsubject⟩, hack⟩
  | ACK subject => exact ⟨h.handleAck src elapsed subject, fun out hout => by cases hout⟩

theorem Backed.advanceProbe {m : Member} (h : m.Backed past)
    (hself : PeerSnapshot past ⟨m.id, m.address, m.heartbeat⟩) :
    ∀ out ∈ (m.advanceProbe clock).2, out.Backed past := by
  intro out hout
  unfold Member.advanceProbe at hout
  split at hout
  · cases hout
  · split at hout
    · cases hout
    · split at hout
      · split at hout
        · unfold sendPingReqs at hout
          split at hout
          · cases hout
          · rename_i peer hpeer
            rw [List.eq_of_mem_replicate hout]
            exact ⟨⟨_, _, hself⟩, fun e he => (by cases he), h.spokeAt hpeer, _, hself⟩
        · cases hout
      · cases hout

/-- The messages of a probe are backed, and probing changes neither the table nor what a node
says of itself. -/
theorem Backed.swimProbe {m : Member} (h : m.Backed past)
    (hself : PeerSnapshot past ⟨m.id, m.address, m.heartbeat⟩)
    (hprobe : m.swimProbe elapsed pick = some (m', out)) :
    m'.Backed past ∧ ∀ msg ∈ out, msg.Backed past := by
  have hbacked : ∀ out ∈ (m.advanceProbe (m.now + elapsed 0)).2, out.Backed past :=
    h.advanceProbe hself
  unfold Member.swimProbe at hprobe
  dsimp only at hprobe
  split at hprobe
  · rename_i probe out' hadv
    rw [hadv] at hbacked
    cases hprobe
    exact ⟨h, hbacked⟩
  · rename_i out' hadv
    rw [hadv] at hbacked
    split at hprobe
    · cases hprobe
      exact ⟨h, hbacked⟩
    · obtain ⟨target, htarget, hprobe⟩ := Option.bind_eq_some_iff.1 hprobe
      cases hprobe
      refine ⟨h, fun msg hmsg => ?_⟩
      rcases List.mem_append.1 hmsg with hmsg | hmsg
      · exact hbacked msg hmsg
      · obtain ⟨x, hx, rfl⟩ := List.mem_map.1 (List.mem_of_getElem? htarget)
        have hget := Dict.mem_items.1 hx
        have hspoke := h.spokeAt (k := x.1) hget
        rw [List.mem_singleton.1 hmsg, m.peers.keyed x.1 x.2 hget]
        exact ⟨⟨_, _, hself⟩, fun e he => (by cases he), ⟨_, hspoke⟩, _, hself⟩

end Member

namespace MemberSwarm

/-- Every table and every message of a swarm is backed by what the nodes themselves said. -/
structure Backed (past : List (MemberSwarm × RejoinAction)) (s : MemberSwarm) : Prop where
  orderly : s.Orderly
  node : ∀ n, (s.node n).Backed past
  sent : ∀ msg ∈ s.sent, msg.Backed past

theorem Backed.init (config : String → MemberConfig) : (init config).Backed [] where
  orderly := .init config
  node n k p h := by cases h
  sent msg h := by cases h

theorem Backed.became {s : MemberSwarm} (h : s.Backed past) (hsub : past ⊆ past')
    (horderly : (s.became n r).Orderly)
    (hr : r.1.Backed past' ∧ ∀ msg ∈ r.2, msg.Backed past') :
    (s.became n r).Backed past' where
  orderly := horderly
  node k := by
    by_cases hkn : k = n
    · subst hkn
      rw [node_became_self]
      exact hr.1
    · rw [node_became_of_ne _ _ hkn]
      exact (h.node k).mono hsub
  sent msg hmsg := by
    cases List.mem_append.1 hmsg with
    | inl hmsg => exact (h.sent msg hmsg).mono hsub
    | inr hmsg => exact hr.2 msg hmsg

theorem Backed.snapshot_self {s : MemberSwarm} (h : s.Backed past)
    (hspeaks : RejoinAction.speaker a = some n) :
    PeerSnapshot ((s, a) :: past) ⟨(s.node n).id, (s.node n).address, (s.node n).heartbeat⟩ := by
  rw [(h.orderly.owned n).id]
  exact ⟨(s, a), List.mem_cons_self, hspeaks, rfl, rfl⟩

theorem Backed.step {s : MemberSwarm} (h : s.Backed past) (hs : s.step a = some s') :
    s'.Backed ((s, .act a) :: past) := by
  have hsub : past ⊆ (s, .act a) :: past := List.subset_cons_self _ _
  have horderly := h.orderly.step hs
  cases a with
  | bootstrap n =>
    have hself := h.snapshot_self (a := .act (.bootstrap n)) rfl
    cases hs
    refine h.became hsub horderly ⟨(h.node n).mono hsub, fun msg hmsg => ?_⟩
    rw [List.mem_singleton.1 hmsg]
    refine ⟨⟨_, _, hself⟩, fun e he => ?_, trivial⟩
    simp only [MemberMessage.records] at he
    split at he
    · cases he
    · rw [List.mem_singleton.1 he]
      exact hself
  | tick n elapsed =>
    cases hs
    exact h.became hsub horderly
      ⟨((h.node n).tick elapsed).mono hsub, fun msg hmsg => by cases hmsg⟩
  | swimProbe n elapsed pick =>
    have hself := h.snapshot_self (a := .act (.swimProbe n elapsed pick)) rfl
    obtain ⟨⟨m, out⟩, hprobe, hs⟩ := Option.bind_eq_some_iff.1 hs
    cases hs
    exact h.became hsub horderly (((h.node n).mono hsub).swimProbe hself hprobe)
  | gossipOnce n =>
    have hself := h.snapshot_self (a := .act (.gossipOnce n)) rfl
    simp only [MemberSwarm.step] at hs
    split at hs
    · cases hs
      exact ⟨h.orderly, fun k => (h.node k).mono hsub, fun msg hmsg => (h.sent msg hmsg).mono hsub⟩
    · cases hs
      have hn := (h.node n).mono hsub
      refine h.became hsub horderly ⟨hn, fun msg hmsg => ?_⟩
      rw [List.mem_singleton.1 hmsg]
      exact ⟨⟨_, _, hself⟩, hn.buildDigest hself, trivial⟩
  | deliver n i elapsed =>
    have hself := h.snapshot_self (a := .act (.deliver n i elapsed)) rfl
    obtain ⟨msg, hi, hs⟩ := Option.bind_eq_some_iff.1 hs
    cases hs
    have hmsg := h.sent msg (List.mem_of_getElem? hi)
    exact h.became hsub horderly (((h.node n).mono hsub).route (hmsg.mono hsub) hself)

theorem Backed.restart {s : MemberSwarm} (h : s.Backed past) (n : String)
    (config : MemberConfig) : (s.restart n config).Backed ((s, .restart n config) :: past) where
  orderly := h.orderly.restart n config
  node k := by
    by_cases hkn : k = n
    · subst hkn
      rw [node_restart_self]
      exact fun x p hx => by cases hx
    · rw [node_restart_of_ne _ _ hkn]
      exact (h.node k).mono (List.subset_cons_self _ _)
  sent msg hmsg := (h.sent msg hmsg).mono (List.subset_cons_self _ _)

theorem Backed.rejoinStep {s : MemberSwarm} (h : s.Backed past) (hs : s.rejoinStep a = some s') :
    s'.Backed ((s, a) :: past) := by
  cases a with
  | restart n config =>
    cases hs
    exact h.restart n config
  | act a => exact h.step hs

theorem Backed.of_run {s : MemberSwarm}
    (h : Run MemberSwarm.rejoinStep (MemberSwarm.init config) past s) : s.Backed past := by
  induction h with
  | start => exact .init config
  | next _ hs ih => exact ih.rejoinStep hs

theorem address_step {s : MemberSwarm} (hs : s.step a = some s') (n : String) :
    (s'.node n).address = (s.node n).address ∧ (s.node n).heartbeat ≤ (s'.node n).heartbeat := by
  have hother : ∀ {m : String} {r : Member × List MemberMessage},
      r.1.address = (s.node m).address ∧ (s.node m).heartbeat ≤ r.1.heartbeat →
      ((s.became m r).node n).address = (s.node n).address ∧
        (s.node n).heartbeat ≤ ((s.became m r).node n).heartbeat := by
    intro m r hr
    by_cases hnm : n = m
    · subst hnm
      rw [node_became_self]
      exact hr
    · rw [node_became_of_ne _ _ hnm]
      exact ⟨rfl, le_rfl⟩
  cases a with
  | bootstrap m =>
    cases hs
    exact hother ⟨rfl, le_rfl⟩
  | tick m elapsed =>
    cases hs
    exact hother ⟨rfl, by simp [Member.tick]⟩
  | swimProbe m elapsed pick =>
    obtain ⟨⟨m', out⟩, hprobe, hs⟩ := Option.bind_eq_some_iff.1 hs
    cases hs
    have hsame : m'.address = (s.node m).address ∧ m'.heartbeat = (s.node m).heartbeat := by
      unfold Member.swimProbe at hprobe
      dsimp only at hprobe
      split at hprobe
      · cases hprobe
        exact ⟨rfl, rfl⟩
      · split at hprobe
        · cases hprobe
          exact ⟨rfl, rfl⟩
        · obtain ⟨target, _, hprobe⟩ := Option.bind_eq_some_iff.1 hprobe
          cases hprobe
          exact ⟨rfl, rfl⟩
    exact hother ⟨hsame.1, hsame.2.ge⟩
  | gossipOnce m =>
    simp only [MemberSwarm.step] at hs
    split at hs
    · cases hs
      exact ⟨rfl, le_rfl⟩
    · cases hs
      exact hother ⟨rfl, le_rfl⟩
  | deliver m i elapsed =>
    obtain ⟨msg, _, hs⟩ := Option.bind_eq_some_iff.1 hs
    cases hs
    have hroute := (s.node m).address_route elapsed msg
    exact hother ⟨hroute.1, hroute.2.ge⟩

/-- What a node that was never restarted has said of itself is still its address, and no more than
its heartbeat. -/
theorem never_restarted {s : MemberSwarm}
    (h : Run MemberSwarm.rejoinStep (MemberSwarm.init config) past s)
    (hk : ∀ p ∈ past, ∀ c, p.2 ≠ .restart k c) :
    (s.node k).address = (config k).address ∧ ∀ p ∈ past,
      (p.1.node k).address = (config k).address ∧
        (p.1.node k).heartbeat ≤ (s.node k).heartbeat := by
  induction h with
  | start => exact ⟨rfl, fun p hp => by cases hp⟩
  | @next past s a s' hr hs ih =>
    obtain ⟨haddress, hpast⟩ := ih (fun p hp => hk p (List.mem_cons_of_mem _ hp))
    have hstep : (s'.node k).address = (s.node k).address ∧
        (s.node k).heartbeat ≤ (s'.node k).heartbeat := by
      cases a with
      | restart n c =>
        cases hs
        have hkn : k ≠ n := by
          rintro rfl
          exact hk _ List.mem_cons_self c rfl
        rw [node_restart_of_ne _ _ hkn]
        exact ⟨rfl, le_rfl⟩
      | act a => exact address_step hs k
    refine ⟨hstep.1.trans haddress, fun p hp => ?_⟩
    rcases List.mem_cons.1 hp with rfl | hp
    · exact ⟨haddress, hstep.2⟩
    · exact ⟨(hpast p hp).1, (hpast p hp).2.trans hstep.2⟩

/-- Whatever a table or a message says of a node is what that node itself was at a step in which
it spoke, however often the nodes restart with other addresses. Of a node that never restarted, a
table has the address, and no heartbeat above the one that it has. -/
theorem membership_comes_from_its_members {s : MemberSwarm}
    (h : Run MemberSwarm.rejoinStep (MemberSwarm.init config) past s) :
    (∀ n k p, (s.node n).peers.get k = some p →
      k ≠ n ∧ p.nodeId = k ∧ PeerSnapshot past p.toDict) ∧
    (∀ msg ∈ s.sent, msg.Backed past) ∧
    ∀ k, (∀ p ∈ past, ∀ c, p.2 ≠ .restart k c) →
      ∀ n q, (s.node n).peers.get k = some q →
        q.address = (config k).address ∧ q.heartbeat ≤ (s.node k).heartbeat := by
  have hbacked := Backed.of_run h
  refine ⟨?_, hbacked.sent, ?_⟩
  · intro n k p hk
    refine ⟨?_, (s.node n).peers.keyed k p hk, hbacked.node n k p hk⟩
    rintro rfl
    rw [(hbacked.orderly.owned k).owner] at hk
    cases hk
  · intro k hk n q hq
    obtain ⟨x, hx, _, haddress, hheartbeat⟩ := hbacked.node n k q hq
    have hid : q.toDict.nodeId = k := (s.node n).peers.keyed k q hq
    rw [hid] at haddress hheartbeat
    obtain ⟨hsame, hle⟩ := (never_restarted h hk).2 x hx
    exact ⟨haddress.trans hsame, hheartbeat.trans_le hle⟩

/-- Node `d` joins `a`, which tells `b` of it, and then starts anew at another address. -/
theorem membership_comes_from_its_members_of_relay : ∃ past s,
    Run rejoinStep (init defaultConfig) past s ∧ (s.node "b").peers.get "d" =
      some ⟨"d", "d", 0, .ALIVE, 0⟩ ∧ (s.node "d").address = "e" ∧
    PeerSnapshot past ⟨"d", "d", 0⟩ := by
  obtain ⟨past, s, hr, he⟩ := exists_run_of_exec rejoinStep (init defaultConfig)
    [.act (.bootstrap "d"), .act (.deliver "a" 0 (after 0)), .act (.gossipOnce "a"),
      .restart "d" ⟨"e", 3, 6, 3 / 2, 2, 0⟩, .act (.deliver "b" 2 (after 0))]
    (fun s => ((s.node "b").peers.get "d", (s.node "d").address))
    (some ⟨"d", "d", 0, .ALIVE, 0⟩, "e") (by decide +kernel)
  simp only [Prod.mk.injEq] at he
  obtain ⟨hget, haddress⟩ := he
  exact ⟨past, s, hr, hget, haddress,
    ((membership_comes_from_its_members hr).1 "b" "d" _ hget).2.2⟩

end MemberSwarm

end Suprime
