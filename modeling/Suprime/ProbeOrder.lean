import Suprime.Membership

namespace Suprime
set_option autoImplicit true

/-- What one node does: the start of a round, a probing step of it, and taking in any message. -/
inductive NodeAction
  | tick (elapsed : ℚ≥0)
  | swimProbe (elapsed : ℕ → ℚ≥0) (pick : ℕ)
  | receive (msg : MemberMessage) (elapsed : ℕ → ℚ≥0)

/-- The action is an ACK of a peer. One without a subject answers nothing. -/
def NodeAction.Answers (p : String) : NodeAction → Prop
  | .receive msg _ => msg.body = .ACK p ∧ p ≠ ""
  | _ => False

namespace Member

def step (m : Member) : NodeAction → Option Member
  | .tick elapsed => some (m.tick elapsed)
  | .swimProbe elapsed pick => (m.swimProbe elapsed pick).map Prod.fst
  | .receive msg elapsed => some (m.route elapsed msg).1

def probes (m : Member) (elapsed : ℕ → ℚ≥0) (pick : ℕ) : List MemberMessage :=
  ((m.swimProbe elapsed pick).map Prod.snd).getD []

/-- When a probing step starts, and when it sends its PING. -/
def roundTime (m : Member) (elapsed : ℕ → ℚ≥0) : ℚ := m.now + elapsed 0

def pingTime (m : Member) (elapsed : ℕ → ℚ≥0) : ℚ := m.roundTime elapsed + elapsed 1

/-- No probe is in flight, or its target is gone, or its indirect phase has timed out. -/
def Free (m : Member) (clock : ℚ) : Prop :=
  match m.probe with
  | none => True
  | some probe => m.peers.get probe.target = none ∨
      probe.phase = .indirect ∧ m.probeTimeout ≤ clock - probe.sentAt

/-- The random choice of a probing step falls on a peer. -/
def Draws (m : Member) (elapsed : ℕ → ℚ≥0) (pick : ℕ) (p : String) : Prop :=
  m.Free (m.roundTime elapsed) ∧ ∃ peer, m.peers.all[pick]? = some peer ∧ peer.nodeId = p

def Evicts (m : Member) (elapsed : ℚ≥0) (p : String) (peer : Peer) : Prop :=
  m.peers.get p = some peer ∧ (m.tick elapsed).peers.get p = none

end Member

/-- Two probing steps of a past, which lists the newest step first. -/
structure TwoRounds (past : List (Member × NodeAction)) where
  post : List (Member × NodeAction)
  m₂ : Member
  e₂ : ℕ → ℚ≥0
  k₂ : ℕ
  mid : List (Member × NodeAction)
  m₁ : Member
  e₁ : ℕ → ℚ≥0
  k₁ : ℕ
  pre : List (Member × NodeAction)
  eq : past = post ++ (m₂, .swimProbe e₂ k₂) :: (mid ++ (m₁, .swimProbe e₁ k₁) :: pre)

namespace TwoRounds

variable {past : List (Member × NodeAction)}

/-- The first step draws a peer after its last update. The second one is the first that comes
`probe_timeout` later, finds another peer alive and comes `probe_timeout` before the end. -/
structure Due (r : TwoRounds past) (p : String) (since ending : ℚ) : Prop where
  draws : r.m₁.Draws r.e₁ r.k₁ p
  since_lt : since < r.m₁.pingTime r.e₁
  mid_lt : ∀ x ∈ r.mid, ∀ e k, x.2 = .swimProbe e k →
    x.1.roundTime e < r.m₁.pingTime r.e₁ + r.m₁.probeTimeout
  le_round : r.m₁.pingTime r.e₁ + r.m₁.probeTimeout ≤ r.m₂.roundTime r.e₂
  helper : ∃ helper ∈ r.m₂.peers.alive, helper.nodeId ≠ p
  indirectK : 0 < r.m₂.indirectK
  le_ending : r.m₂.roundTime r.e₂ + r.m₂.probeTimeout ≤ ending

/-- A peer was sent a PING after its last update, then PING_REQs named it, and either stayed
unanswered for `probe_timeout`. -/
structure Probed (r : TwoRounds past) (p : String) (since ending : ℚ) : Prop where
  ping : ⟨r.m₁.id, .PING p r.m₁.id r.m₁.address⟩ ∈ r.m₁.probes r.e₁ r.k₁
  since_lt : since < r.m₁.pingTime r.e₁
  le_round : r.m₁.pingTime r.e₁ + r.m₁.probeTimeout ≤ r.m₂.roundTime r.e₂
  pingReq : ∃ address, ⟨r.m₂.id, .PING_REQ p address r.m₂.id r.m₂.address⟩ ∈
    r.m₂.probes r.e₂ r.k₂
  le_ending : r.m₂.roundTime r.e₂ + r.m₂.probeTimeout ≤ ending
  unanswered : ∀ x ∈ r.post ++ (r.m₂, .swimProbe r.e₂ r.k₂) :: r.mid, ¬ x.2.Answers p

end TwoRounds

namespace Member

theorem applyDigest_spec (m : Member) (src : String) (elapsed : ℕ → ℚ≥0) (l : List PeerRecord) :
    m.now ≤ (m.applyDigest src elapsed l).now ∧ (m.applyDigest src elapsed l).probe = m.probe ∧
      ∀ p q, (m.applyDigest src elapsed l).peers.get p = some q →
        m.peers.get p = some q ∨ m.now ≤ q.lastUpdate := by
  induction l generalizing m elapsed with
  | nil => exact ⟨le_rfl, rfl, fun p q h => .inl h⟩
  | cons e es ih =>
    obtain ⟨hnow, hprobe, hget⟩ :=
      ih (m.observe src (m.now + elapsed 0) e) (fun i => elapsed (i + 1))
    have hle := le_elapsed m.now (elapsed 0)
    refine ⟨hle.trans hnow, hprobe, ?_⟩
    intro p q hq
    cases hget p q hq with
    | inr hlate => exact .inr (hle.trans hlate)
    | inl hold =>
      have hmerge : (m.peers.merge (m.now + elapsed 0) e).1.get p = some q := hold
      rw [PeerTable.get_merge] at hmerge
      split at hmerge
      · cases hmerge
        exact .inr hle
      · exact .inl hmerge

theorem handleJoin_spec (m : Member) (src : String) (elapsed : ℕ → ℚ≥0) (address : String)
    (heartbeat : ℤ) :
    m.now ≤ (m.handleJoin src elapsed address heartbeat).1.now ∧
      (m.handleJoin src elapsed address heartbeat).1.probe = m.probe ∧
      ∀ p q, (m.handleJoin src elapsed address heartbeat).1.peers.get p = some q →
        m.peers.get p = some q ∨ m.now ≤ q.lastUpdate := by
  rw [handleJoin]
  split
  · exact ⟨le_rfl, rfl, fun p q h => .inl h⟩
  · exact m.applyDigest_spec src elapsed [⟨src, address, heartbeat⟩]

theorem now_le_step {m m' : Member} {a : NodeAction} (h : m.step a = some m') :
    m.now ≤ m'.now := by
  cases a with
  | tick elapsed =>
    cases h
    exact le_elapsed _ _
  | swimProbe elapsed pick =>
    obtain ⟨⟨m₁, out⟩, hr, rfl⟩ := Option.map_eq_some_iff.1 h
    exact (swimProbe_spec hr).2.2.1
  | receive msg elapsed =>
    cases h
    obtain ⟨src, body⟩ := msg
    cases body with
    | GOSSIP l => exact (m.applyDigest_spec src elapsed l).1
    | WELCOME l => exact (m.applyDigest_spec src elapsed l).1
    | JOIN address heartbeat => exact (m.handleJoin_spec src elapsed address heartbeat).1
    | PING subject ackTo ackAddr => exact le_rfl
    | PING_REQ subject subjectAddr ackTo ackAddr => exact le_rfl
    | ACK subject =>
      simp only [route, handleAck]
      split
      · exact le_rfl
      · exact le_elapsed _ _

theorem now_le_run {m m' : Member} {past : List (Member × NodeAction)}
    (h : Run step m past m') : m.now ≤ m'.now := by
  induction h with
  | start => exact le_rfl
  | next _ hs ih => exact ih.trans (now_le_step hs)

/-- What a step leaves of a peer that was not updated lately: the peer was there before, no ACK of
it came, and a probe of it is in flight as before unless the step is a probing step. -/
theorem step_back {m m' : Member} {a : NodeAction} (h : m.step a = some m')
    (hq : m'.peers.get p = some q) (hlt : q.lastUpdate < t) (ht : t ≤ m.now) :
    ¬ a.Answers p ∧ (∃ q', m.peers.get p = some q' ∧ q'.lastUpdate = q.lastUpdate) ∧
      ((∀ e k, a ≠ .swimProbe e k) → ∀ probe, m.probe = some probe → probe.target = p →
        m'.probe = some probe) := by
  cases a with
  | tick elapsed =>
    cases h
    obtain ⟨q', hq', hu, _⟩ := PeerTable.of_get_tick hq
    exact ⟨fun h => h, ⟨q', hq', hu⟩, fun _ probe hprobe _ => hprobe⟩
  | swimProbe elapsed pick =>
    obtain ⟨⟨m₁, out⟩, hr, rfl⟩ := Option.map_eq_some_iff.1 h
    obtain ⟨hpeers, _⟩ := swimProbe_spec hr
    rw [hpeers] at hq
    exact ⟨fun h => h, ⟨q, hq, rfl⟩, fun hne => absurd rfl (hne elapsed pick)⟩
  | receive msg elapsed =>
    cases h
    obtain ⟨src, body⟩ := msg
    have hspec : ∀ m₁ : Member, m.now ≤ m₁.now ∧ m₁.probe = m.probe ∧
        (∀ p q, m₁.peers.get p = some q → m.peers.get p = some q ∨ m.now ≤ q.lastUpdate) →
        m₁.peers.get p = some q → (∀ k, body ≠ .ACK k) →
        ¬ (NodeAction.receive ⟨src, body⟩ elapsed).Answers p ∧
          (∃ q', m.peers.get p = some q' ∧ q'.lastUpdate = q.lastUpdate) ∧
          ((∀ e k, NodeAction.receive ⟨src, body⟩ elapsed ≠ .swimProbe e k) → ∀ probe,
            m.probe = some probe → probe.target = p → m₁.probe = some probe) := by
      intro m₁ hm₁ hget hbody
      obtain ⟨_, hprobe, hold⟩ := hm₁
      refine ⟨fun hans => hbody p hans.1, ?_, fun _ probe hp _ => hprobe.trans hp⟩
      cases hold p q hget with
      | inl hget => exact ⟨q, hget, rfl⟩
      | inr hlate => exact absurd (hlt.trans_le (ht.trans hlate)) (lt_irrefl _)
    cases body with
    | GOSSIP l => exact hspec _ (m.applyDigest_spec src elapsed l) hq (fun k hk => by cases hk)
    | WELCOME l => exact hspec _ (m.applyDigest_spec src elapsed l) hq (fun k hk => by cases hk)
    | JOIN address heartbeat =>
      exact hspec _ (m.handleJoin_spec src elapsed address heartbeat) hq (fun k hk => by cases hk)
    | PING subject ackTo ackAddr =>
      exact hspec m ⟨le_rfl, rfl, fun p q h => .inl h⟩ hq (fun k hk => by cases hk)
    | PING_REQ subject subjectAddr ackTo ackAddr =>
      exact hspec m ⟨le_rfl, rfl, fun p q h => .inl h⟩ hq (fun k hk => by cases hk)
    | ACK subject =>
      simp only [route, handleAck] at hq ⊢
      by_cases hs : subject = ""
      · rw [if_pos hs] at hq ⊢
        refine ⟨?_, ⟨q, hq, rfl⟩, fun _ probe hp _ => hp⟩
        intro hans
        obtain ⟨he, hne⟩ := hans
        cases he
        exact hne hs
      · rw [if_neg hs] at hq ⊢
        dsimp only at hq ⊢
        rw [PeerTable.get_refresh] at hq
        by_cases hp : p = subject
        · rw [if_pos hp] at hq
          obtain ⟨q', _, rfl⟩ := Option.map_eq_some_iff.1 hq
          have hle := ht.trans (le_elapsed m.now (elapsed 0))
          exact absurd (hlt.trans_le hle) (lt_irrefl _)
        · rw [if_neg hp] at hq
          refine ⟨?_, ⟨q, hq, rfl⟩, ?_⟩
          · intro hans
            cases hans.1
            exact hp rfl
          · intro _ probe hprobe htarget
            rw [hprobe, Option.filter_some, if_pos]
            simp only [htarget, ne_eq, hp, not_false_eq_true, decide_true]

theorem applyDigest_probeTimeout (m : Member) (src : String) (elapsed : ℕ → ℚ≥0)
    (l : List PeerRecord) : (m.applyDigest src elapsed l).probeTimeout = m.probeTimeout := by
  induction l generalizing m elapsed with
  | nil => rfl
  | cons e es ih => exact ih _ _

theorem route_probeTimeout (m : Member) (elapsed : ℕ → ℚ≥0) (msg : MemberMessage) :
    (m.route elapsed msg).1.probeTimeout = m.probeTimeout := by
  obtain ⟨src, body⟩ := msg
  cases body with
  | GOSSIP l => exact m.applyDigest_probeTimeout src elapsed l
  | WELCOME l => exact m.applyDigest_probeTimeout src elapsed l
  | JOIN address heartbeat =>
    simp only [route, handleJoin]
    split <;> rfl
  | PING subject ackTo ackAddr => rfl
  | PING_REQ subject subjectAddr ackTo ackAddr => rfl
  | ACK subject =>
    simp only [route, handleAck]
    split <;> rfl

theorem advanceProbe_waiting {m : Member} {probe : Probe} (hp : m.probe = some probe)
    (hk : m.peers.get probe.target ≠ none) (ht : clock - probe.sentAt < m.probeTimeout) :
    m.advanceProbe clock = (some probe, []) := by
  rw [advanceProbe, hp]
  dsimp only
  rw [if_neg (by rw [Option.isNone_iff_eq_none]; exact hk), if_neg (not_le.2 ht)]

theorem advanceProbe_direct {m : Member} {probe : Probe} (hp : m.probe = some probe)
    (hk : m.peers.get probe.target ≠ none) (ht : m.probeTimeout ≤ clock - probe.sentAt)
    (hd : probe.phase = .direct) :
    m.advanceProbe clock =
      (some { probe with phase := .indirect, sentAt := clock }, m.sendPingReqs probe.target) := by
  rw [advanceProbe, hp]
  dsimp only
  rw [if_neg (by rw [Option.isNone_iff_eq_none]; exact hk), if_pos ht, hd]

theorem advanceProbe_free {m : Member} (h : m.Free clock) : m.advanceProbe clock = (none, []) := by
  rw [Free] at h
  rw [advanceProbe]
  cases hp : m.probe with
  | none => rfl
  | some probe =>
    rw [hp] at h
    dsimp only
    cases hk : m.peers.get probe.target with
    | none => exact if_pos rfl
    | some peer =>
      cases h with
      | inl hgone =>
        rw [hk] at hgone
        cases hgone
      | inr hout =>
        rw [if_neg (by exact Bool.false_ne_true), if_pos hout.2, hout.1]

theorem swimProbe_of_some {m : Member} {pr : Probe}
    (h : m.advanceProbe (m.roundTime elapsed) = (some pr, out)) :
    m.swimProbe elapsed pick =
      some ({ m with probe := some pr, now := m.roundTime elapsed }, out) := by
  rw [roundTime] at h
  rw [swimProbe, h]
  rfl

theorem swimProbe_of_free {m : Member} (h : m.Free (m.roundTime elapsed))
    (hpeer : m.peers.all[pick]? = some peer) :
    m.swimProbe elapsed pick = some ({ m with
      probe := some ⟨peer.nodeId, m.pingTime elapsed, .direct⟩
      now := m.pingTime elapsed }, [⟨m.id, .PING peer.nodeId m.id m.address⟩]) := by
  have hne : m.peers.all ≠ [] := by
    intro hnil
    rw [hnil] at hpeer
    cases hpeer
  have hadv := advanceProbe_free h
  rw [roundTime] at hadv
  rw [swimProbe, hadv]
  dsimp only
  rw [if_neg hne, hpeer]
  rfl

theorem probeTimeout_step {m m' : Member} {a : NodeAction} (h : m.step a = some m') :
    m'.probeTimeout = m.probeTimeout := by
  cases a with
  | tick elapsed =>
    cases h
    rfl
  | receive msg elapsed =>
    cases h
    exact m.route_probeTimeout elapsed msg
  | swimProbe elapsed pick =>
    obtain ⟨⟨m₁, out⟩, hr, rfl⟩ := Option.map_eq_some_iff.1 h
    cases hadv : m.advanceProbe (m.roundTime elapsed) with
    | mk probe out' =>
      cases probe with
      | some pr =>
        rw [swimProbe_of_some hadv] at hr
        cases hr
        rfl
      | none =>
        rw [roundTime] at hadv
        rw [swimProbe, hadv] at hr
        dsimp only at hr
        split at hr
        · cases hr
          rfl
        · obtain ⟨target, _, hr⟩ := Option.bind_eq_some_iff.1 hr
          cases hr
          rfl

theorem probeTimeout_run {m m' : Member} {past : List (Member × NodeAction)}
    (h : Run step m past m') : m'.probeTimeout = m.probeTimeout := by
  induction h with
  | start => rfl
  | next _ hs ih => exact (probeTimeout_step hs).trans ih

/-- A peer that was not updated since `t` was there since `t`, and no ACK of it came. -/
theorem run_back {m m' : Member} {past : List (Member × NodeAction)} (h : Run step m past m')
    (hq : m'.peers.get p = some q) (hlt : q.lastUpdate < t) (ht : t ≤ m.now) :
    (∀ x ∈ past, ¬ x.2.Answers p) ∧
      ∃ q', m.peers.get p = some q' ∧ q'.lastUpdate = q.lastUpdate := by
  induction h generalizing q with
  | start => exact ⟨fun x hx => (nomatch hx), q, hq, rfl⟩
  | next hr hs ih =>
    obtain ⟨hans, ⟨q', hq', hu⟩, _⟩ := step_back hs hq hlt (ht.trans (now_le_run hr))
    obtain ⟨hpast, q'', hq'', hu'⟩ := ih hq' (hu ▸ hlt)
    refine ⟨?_, q'', hq'', hu'.trans hu⟩
    intro x hx
    cases List.mem_cons.1 hx with
    | inl he => exact he ▸ hans
    | inr hx => exact hpast x hx

/-- A probe of such a peer stays in flight while no probing step comes `probe_timeout` after it. -/
theorem run_probe {m m' : Member} {past : List (Member × NodeAction)} {pr : Probe}
    (h : Run step m past m') (hprobe : m.probe = some pr) (hnow : m.now = pr.sentAt)
    (hq : m'.peers.get pr.target = some q) (hlt : q.lastUpdate < pr.sentAt)
    (hmid : ∀ x ∈ past, ∀ e k, x.2 = .swimProbe e k →
      x.1.roundTime e < pr.sentAt + m.probeTimeout) : m'.probe = some pr := by
  induction h generalizing q with
  | start => exact hprobe
  | @next past m₁ a m₂ hr hs ih =>
    have ht : pr.sentAt ≤ m₁.now := hnow ▸ now_le_run hr
    obtain ⟨_, ⟨q', hq', hu⟩, hkeep⟩ := step_back hs hq hlt ht
    have hbefore := ih hq' (hu ▸ hlt) (fun x hx => hmid x (List.mem_cons_of_mem _ hx))
    cases a with
    | tick elapsed => exact hkeep (fun _ _ he => (nomatch he)) pr hbefore rfl
    | receive msg elapsed => exact hkeep (fun _ _ he => (nomatch he)) pr hbefore rfl
    | swimProbe elapsed pick =>
      have hround := hmid _ List.mem_cons_self elapsed pick rfl
      have hwait : m₁.roundTime elapsed - pr.sentAt < m₁.probeTimeout := by
        rw [probeTimeout_run hr]
        linarith
      have hknown : m₁.peers.get pr.target ≠ none := by
        rw [hq']
        exact Option.some_ne_none _
      have hadv := advanceProbe_waiting hbefore hknown hwait
      rw [step, swimProbe_of_some hadv] at hs
      cases hs
      rfl

end Member

open Member

/-- Probe before eviction: a peer that a tick evicts was probed directly and then indirectly since
its last update, when it was drawn in time and another peer could be asked. -/
theorem probed_of_due {m₀ m : Member} {past : List (Member × NodeAction)}
    (h : Run step m₀ past m) {elapsed : ℚ≥0} {p : String} {peer : Peer}
    (he : m.Evicts elapsed p peer) {r : TwoRounds past}
    (hr : r.Due p peer.lastUpdate (m.now + elapsed)) :
    r.Probed p peer.lastUpdate (m.now + elapsed) := by
  obtain ⟨post, m₂, e₂, k₂, mid, m₁, e₁, k₁, pre, rfl⟩ := r
  obtain ⟨⟨hfree, target, hpick, rfl⟩, hsince, hmid, hround, ⟨helper, halive, hne⟩, hk, hend⟩ := hr
  dsimp only at hfree hpick hsince hmid hround halive hk hend
  obtain ⟨m₂', hto₂, hs₂, hpost⟩ := Run.split h
  obtain ⟨m₁', _, hs₁, hbetween⟩ := Run.split hto₂
  have hswim₁ := swimProbe_of_free hfree hpick
  rw [step, hswim₁] at hs₁
  cases hs₁
  have hle₂ : m₁.pingTime e₁ ≤ m₂.now := now_le_run hbetween
  have hle₂' : m₁.pingTime e₁ ≤ m₂'.now := hle₂.trans (now_le_step hs₂)
  obtain ⟨hans, q, hq, hu⟩ := run_back hpost he.1 hsince hle₂'
  obtain ⟨hans₂, ⟨q₂, hq₂, hu₂⟩, _⟩ := step_back hs₂ hq (hu ▸ hsince) hle₂
  have hlt₂ : q₂.lastUpdate < m₁.pingTime e₁ := by
    rw [hu₂, hu]
    exact hsince
  obtain ⟨hansMid, _⟩ := run_back hbetween hq₂ hlt₂ le_rfl
  have hprobe := run_probe hbetween rfl rfl hq₂ hlt₂ hmid
  have hpt := probeTimeout_run hbetween
  dsimp only at hpt
  have hknown : m₂.peers.get target.nodeId ≠ none := by
    rw [hq₂]
    exact Option.some_ne_none _
  have hlong : m₂.probeTimeout ≤ m₂.roundTime e₂ - m₁.pingTime e₁ := by
    rw [hpt]
    linarith
  have hadv := advanceProbe_direct hprobe hknown hlong rfl
  refine ⟨?_, hsince, hround, ⟨q₂.address, ?_⟩, hend, ?_⟩
  · rw [probes, hswim₁]
    exact List.mem_singleton_self _
  · rw [probes, swimProbe_of_some hadv, Option.map_some, Option.getD_some, sendPingReqs]
    dsimp only
    rw [hq₂]
    dsimp only
    rw [List.mem_replicate]
    refine ⟨?_, rfl⟩
    have hpos : 0 < (m₂.peers.alive.filter (fun p => p.nodeId ≠ target.nodeId)).length :=
      List.length_pos_of_mem (List.mem_filter.2 ⟨halive, decide_eq_true hne⟩)
    omega
  · intro x hx
    cases List.mem_append.1 hx with
    | inl hx => exact hans x hx
    | inr hx =>
      cases List.mem_cons.1 hx with
      | inl he => exact he ▸ hans₂
      | inr hx => exact hansMid x hx

/-- A node with the default timeouts that has just started. -/
def startedNode : Member := (MemberSwarm.init defaultConfig).node "a"

def joins (p : String) : NodeAction := .receive ⟨p, .JOIN p 0⟩ (after 0)

/-- The rounds of a run drew `d` and asked `b` about it, and the next tick evicts it. -/
def askedOneHelper (elapsed : ℚ≥0) : List (Member × NodeAction) → Member → Bool
  | [(m₂, .swimProbe e₂ _), (_, .tick _), (m₁, .swimProbe e₁ k₁), _, _, _], m => decide
      ((m₁.probe = none ∧ (m₁.peers.all[k₁]?).map (·.nodeId) = some "d" ∧
          m₁.pingTime e₁ = 1 ∧ m₁.probeTimeout = 3 / 2) ∧
        (m₂.roundTime e₂ = 5 / 2 ∧ "b" ∈ m₂.peers.alive.map (·.nodeId) ∧ m₂.indirectK = 2 ∧
          m₂.probeTimeout = 3 / 2) ∧
        m.now = 5 / 2 ∧ (m.peers.get "d").map (·.lastUpdate) = some 0 ∧
          (m.tick elapsed).peers.get "d" = none)
  | _, _ => false

/-- The node draws `d`, asks `b` about it when its PING has timed out, and evicts it later. -/
theorem probed_of_due_one_helper : ∃ past m, Run step startedNode past m ∧
    ∃ peer, m.Evicts (7 / 2) "d" peer ∧
      ∃ r : TwoRounds past, r.Probed "d" peer.lastUpdate (m.now + (7 / 2 : ℚ≥0)) := by
  obtain ⟨past, m, h, hs⟩ := exists_run_of_execPast step startedNode
    [joins "d", joins "b", .tick 1, .swimProbe (after 0) 0, .tick (3 / 2), .swimProbe (after 0) 0]
    (askedOneHelper (7 / 2)) true (by decide +kernel)
  refine ⟨past, m, h, ?_⟩
  unfold askedOneHelper at hs
  split at hs
  · rename_i m₂ e₂ k₂ x elapsed m₁ e₁ k₁ y z w
    obtain ⟨⟨hnone, hdraw, hping, hpt₁⟩, ⟨hround, hhelper, hk, hpt₂⟩, hnow, hlast, hgone⟩ :=
      of_decide_eq_true hs
    obtain ⟨peer, hpeer, hsince⟩ := Option.map_eq_some_iff.1 hlast
    obtain ⟨target, htarget, hd⟩ := Option.map_eq_some_iff.1 hdraw
    obtain ⟨helper, halive, hb⟩ := List.mem_map.1 hhelper
    refine ⟨peer, ⟨hpeer, hgone⟩,
      ⟨[], m₂, e₂, k₂, [(x, .tick elapsed)], m₁, e₁, k₁, [y, z, w], rfl⟩, ?_⟩
    apply probed_of_due h ⟨hpeer, hgone⟩
    constructor
    · refine ⟨?_, target, htarget, hd⟩
      rw [Free, hnone]
      trivial
    · dsimp only
      rw [hsince, hping]
      exact zero_lt_one
    · intro x hx e k he
      rw [List.mem_singleton.1 hx] at he
      cases he
    · dsimp only
      rw [hping, hpt₁, hround]
      norm_num
    · refine ⟨helper, halive, ?_⟩
      rw [hb]
      decide
    · dsimp only
      rw [hk]
      exact Nat.zero_lt_two
    · dsimp only
      rw [hround, hpt₂, hnow]
      norm_num [NNRat.cast_div]
  · cases hs

def pingsTo (p : String) (x : Member × NodeAction) : Bool :=
  match x.2 with
  | .swimProbe elapsed pick => (x.1.probes elapsed pick).any (fun msg =>
      match msg.body with
      | .PING subject _ _ => subject = p
      | _ => false)
  | _ => false

/-- The random choice falls on `b` five times, and `d` is evicted without a PING. -/
theorem eviction_without_probe : ¬ ∀ (past : List (Member × NodeAction)) (m : Member),
    Run step startedNode past m → ∀ elapsed p peer, m.Evicts elapsed p peer →
    ∃ r : TwoRounds past, r.Probed p peer.lastUpdate (m.now + elapsed) := by
  intro hclaim
  let round : List NodeAction :=
    [.tick 1, .swimProbe (after 0) 1, .receive ⟨"b", .ACK "b"⟩ (after 0)]
  obtain ⟨past, m, h, hs⟩ := exists_run_of_execPast step startedNode
    (joins "d" :: joins "b" :: (round ++ round ++ round ++ round ++ round))
    (fun past m => decide ((∀ x ∈ past, pingsTo "d" x = false) ∧
      (m.peers.get "d").isSome ∧ (m.tick 1).peers.get "d" = none)) true (by decide +kernel)
  obtain ⟨hno, hsome, hgone⟩ := of_decide_eq_true hs
  obtain ⟨peer, hpeer⟩ := Option.isSome_iff_exists.1 hsome
  obtain ⟨r, hr⟩ := hclaim past m h 1 "d" peer ⟨hpeer, hgone⟩
  obtain ⟨post, m₂, e₂, k₂, mid, m₁, e₁, k₁, pre, rfl⟩ := r
  have hping := hno (m₁, .swimProbe e₁ k₁) (by simp)
  rw [pingsTo, List.any_eq_false] at hping
  exact hping _ hr.ping (decide_eq_true rfl)

end Suprime
