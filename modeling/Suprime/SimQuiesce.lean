import Suprime.SimRounds

namespace Suprime
set_option autoImplicit true

namespace Simulation

variable {ρ α : Type}

theorem addressOf_injective : Function.Injective addressOf := by
  intro i j h
  have hlist := congrArg String.toList h
  rw [addressOf, addressOf, String.toList_append, String.toList_append,
    List.append_cancel_left_eq] at hlist
  apply idOf_injective
  dsimp only
  rw [idOf, idOf, String.toList_append, String.toList_append, hlist]

theorem SwarmNode.mem_remember {x messageId : String} (n : SwarmNode ρ α)
    (h : x ∈ (n.remember messageId).seen) : x ∈ n.seen ∨ x = messageId := by
  have hmem : x ∈ n.seen ++ [messageId] := by
    unfold remember at h
    dsimp only at h
    split at h
    · exact List.mem_of_mem_tail h
    · exact h
  rw [List.mem_append, List.mem_singleton] at hmem
  exact hmem

/-- The messages that were made, in their order: every message on its way and every id that a node
has seen is one of theirs. -/
structure Registered (inputs : Inputs) (posted : List (SimMessage α)) (w : Midway ρ α) :
    Prop where
  length : posted.length = w.sim.messageIds
  id : ∀ k m, posted[k]? = some m → m.id = inputs.messageId k
  queued : ∀ q ∈ w.sim.network.queue ++ w.due, q.message ∈ posted
  given : ∀ m ∈ w.given, m ∈ posted
  seen : ∀ i, ∀ x ∈ (w.sim.nodes i).seen, ∃ m ∈ posted, m.id = x

namespace Registered

variable {inputs : Inputs} {posted : List (SimMessage α)} {s s' : Simulator ρ α}
  {due due' : List (Queued α)} {given given' : List (SimMessage α)}

theorem init (random : PyRandom ρ) (cfg : SimConfig) :
    Registered inputs [] ⟨(Simulator.init random cfg : Simulator ρ α), [], []⟩ where
  length := rfl
  id k m h := by cases h
  queued q hq := by cases hq
  given m hm := by cases hm
  seen i x hx := by cases hx

theorem eq_of_id (h : Registered inputs posted w) (hids : Function.Injective inputs.messageId)
    (hm : m ∈ posted) (hm' : m' ∈ posted) (hid : m.id = m'.id) : m = m' := by
  obtain ⟨k, hk⟩ := List.mem_iff_getElem?.1 hm
  obtain ⟨k', hk'⟩ := List.mem_iff_getElem?.1 hm'
  rw [h.id k m hk, h.id k' m' hk'] at hid
  cases hids hid
  exact Option.some.inj (hk.symm.trans hk')

theorem unseen (h : Registered inputs posted w) (hids : Function.Injective inputs.messageId)
    (hk : w.sim.messageIds ≤ k) : inputs.messageId k ∉ (w.sim.nodes i).seen := by
  intro hx
  obtain ⟨m, hm, hid⟩ := h.seen i _ hx
  obtain ⟨k', hk'⟩ := List.mem_iff_getElem?.1 hm
  have hlt := (List.getElem?_eq_some_iff.1 hk').1
  rw [h.length] at hlt
  rw [h.id k' m hk'] at hid
  cases hids hid
  exact absurd hlt (not_lt.2 hk)

theorem same (h : Registered inputs posted ⟨s, due, given⟩) (hids : s'.messageIds = s.messageIds)
    (hqueue : s'.network.queue ++ due' ⊆ s.network.queue ++ due)
    (hgiven : ∀ m ∈ given', m ∈ posted)
    (hseen : ∀ i, ∀ x ∈ (s'.nodes i).seen, x ∈ (s.nodes i).seen ∨ ∃ m ∈ posted, m.id = x) :
    Registered inputs posted ⟨s', due', given'⟩ where
  length := h.length.trans hids.symm
  id := h.id
  queued q hq := h.queued q (hqueue hq)
  given := hgiven
  seen i x hx := by
    rcases hseen i x hx with hold | hm
    · exact h.seen i x hold
    · exact hm

theorem rest (h : Registered inputs posted ⟨s, due, given⟩) (hs : s.Rests s') :
    Registered inputs posted ⟨s', due, given⟩ := by
  apply h.same hs.messageIds _ h.given
  · intro i x hx
    rw [hs.nodes] at hx
    exact .inl hx
  · rw [hs.queue]
    exact fun x hx => hx

theorem setNode (h : Registered inputs posted ⟨s, due, given⟩)
    (hseen : ∀ x ∈ n.seen, x ∈ (s.nodes i).seen ∨ ∃ m ∈ posted, m.id = x) :
    Registered inputs posted ⟨s.setNode i n, due, given⟩ := by
  refine h.same rfl (fun x hx => hx) h.given (fun j x hx => ?_)
  by_cases hji : j = i
  · subst hji
    simp only [Simulator.setNode, Function.update_self] at hx
    exact hseen x hx
  · simp only [Simulator.setNode, Function.update_of_ne hji] at hx
    exact .inl hx

theorem enqueue (h : Registered inputs posted ⟨s, due, given⟩) (random : PyRandom ρ)
    (src dst : String) (hm : m ∈ posted) :
    Registered inputs posted ⟨s.enqueue random src dst m, due, given⟩ := by
  rcases s.enqueue_cases random src dst m with hs | ⟨_, hs⟩ | ⟨_, _, _, _, hs⟩
  · rw [hs]
    exact ⟨h.length, h.id, h.queued, h.given, h.seen⟩
  · rw [hs]
    exact ⟨h.length, h.id, h.queued, h.given, h.seen⟩
  · rw [hs]
    refine ⟨h.length, h.id, fun q hq => ?_, h.given, h.seen⟩
    rcases List.mem_append.1 hq with hq | hq
    · rcases List.mem_append.1 hq with hq | hq
      · exact h.queued q (List.mem_append_left _ hq)
      · rw [List.mem_singleton.1 hq]
        exact hm
    · exact h.queued q (List.mem_append_right _ hq)

theorem post (h : Registered inputs posted ⟨s, due, given⟩) (random : PyRandom ρ) (i : ℕ)
    (dsts : List String) (body : Body α) :
    Registered inputs (posted ++ [⟨inputs.messageId s.messageIds, (s.nodes i).id, body⟩])
      ⟨s.post random inputs i dsts body, due, given⟩ := by
  apply s.post_induction random inputs (I := fun t => Registered inputs _ ⟨t, due, given⟩) i dsts
    body
  · refine ⟨?_, fun k m hk => ?_, fun q hq => ?_, fun m hm => ?_, fun j x hx => ?_⟩
    · rw [List.length_append, h.length]
      rfl
    · rw [List.getElem?_append] at hk
      split at hk
      · exact h.id k m hk
      · rename_i hlt
        rw [List.getElem?_singleton] at hk
        split at hk
        · rename_i hzero
          cases hk
          have hlength : posted.length = s.messageIds := h.length
          rw [show k = s.messageIds by omega]
        · cases hk
    · exact List.mem_append_left _ (h.queued q hq)
    · exact List.mem_append_left _ (h.given m hm)
    · obtain ⟨m, hm, hid⟩ := h.seen j x hx
      exact ⟨m, List.mem_append_left _ hm, hid⟩
  · intro t _ ht dst
    exact ht.enqueue random _ _ (List.mem_append_right _ List.mem_cons_self)

end Registered

namespace Registered

variable {random : PyRandom ρ} {inputs : Inputs} {posted : List (SimMessage α)}

theorem act {s s' : Simulator ρ α} {due : List (Queued α)} {given : List (SimMessage α)}
    (h : Registered inputs posted ⟨s, due, given⟩) (hmove : LocalMove random inputs s s') :
    ∃ posted', Registered inputs posted' ⟨s', due, given⟩ := by
  have hwrote : ∀ i store, Registered inputs posted ⟨s.wrote i store, due, given⟩ := by
    intro i store
    have hnode : Registered inputs posted ⟨s.setNode i { s.nodes i with store }, due, given⟩ :=
      h.setNode (fun x hx => .inl hx)
    exact ⟨hnode.length, hnode.id, hnode.queued, hnode.given, hnode.seen⟩
  cases hmove with
  | drift hd =>
    refine ⟨posted, h.same hd.messageIds ?_ h.given (fun i x hx => ?_)⟩
    · rw [hd.network]
      exact fun x hx => hx
    · rw [hd.nodes] at hx
      exact .inl hx
  | node hn =>
    refine ⟨posted, h.setNode (fun x hx => ?_)⟩
    rw [hn.seen] at hx
    exact .inl hx
  | write _ hs =>
    obtain ⟨clock, _, hs⟩ := Option.bind_eq_some_iff.1 hs
    cases hs
    exact ⟨posted, hwrote _ _⟩
  | erase _ hs =>
    unfold Simulator.erase at hs
    split at hs
    · cases hs
      exact ⟨posted, h⟩
    · obtain ⟨clock, _, hs⟩ := Option.bind_eq_some_iff.1 hs
      cases hs
      exact ⟨posted, hwrote _ _⟩
  | post => exact ⟨_, h.post random _ _ _⟩

theorem move {w w' : Midway ρ α} (h : Registered inputs posted w)
    (hmove : Move random inputs w w') : ∃ posted', Registered inputs posted' w' := by
  cases hmove with
  | act hlocal => exact h.act hlocal
  | advance => exact ⟨posted, h.rest .advance⟩
  | opened => exact ⟨posted, h.rest .opened⟩
  | cutOrHeal => exact ⟨posted, h.rest (.cutOrHeal random)⟩
  | crash => exact ⟨posted, h.rest (.crash random)⟩
  | restart => exact ⟨posted, h.rest (.restart random inputs)⟩
  | calm => exact ⟨posted, h.rest .calm⟩
  | @take s given =>
    refine ⟨posted, h.same rfl ?_ h.given (fun i x hx => .inl hx)⟩
    rw [List.append_nil]
    exact s.taken_subset random
  | @hand i s item due given hi =>
    refine ⟨posted, h.same rfl (fun x hx => ?_) (fun m hm => ?_) (fun i x hx => .inl hx)⟩
    · rcases List.mem_append.1 hx with hx | hx
      · exact List.mem_append_left _ hx
      · exact List.mem_append_right _ (List.mem_cons_of_mem _ hx)
    · rcases List.mem_cons.1 hm with rfl | hm
      · exact h.queued item (List.mem_append_right _ List.mem_cons_self)
      · exact h.given m hm
  | strand hi =>
    refine ⟨posted, h.same rfl (fun x hx => ?_) h.given (fun i x hx => .inl hx)⟩
    rcases List.mem_append.1 hx with hx | hx
    · exact List.mem_append_left _ hx
    · exact List.mem_append_right _ (List.mem_cons_of_mem _ hx)
  | @remember given m s due i hm =>
    refine ⟨posted, h.setNode (fun x hx => ?_)⟩
    rcases (s.nodes i).mem_remember hx with hold | rfl
    · exact .inl hold
    · exact .inr ⟨m, h.given m hm, rfl⟩
  | hear => exact ⟨posted, h.setNode (fun x hx => .inl hx)⟩

theorem moves {w w' : Midway ρ α} (h : Registered inputs posted w)
    (hmoves : Moves random inputs w w') : ∃ posted', Registered inputs posted' w' := by
  induction hmoves with
  | refl => exact ⟨posted, h⟩
  | tail _ hmove ih =>
    obtain ⟨posted', h'⟩ := ih
    exact h'.move hmove

end Registered

namespace Simulator

variable (random : PyRandom ρ) (inputs : Inputs)

/-- A node holds whatever a message brings. -/
def Holds (s : Simulator ρ α) (i : ℕ) (m : SimMessage α) : Prop :=
  ∀ d, m.body.digest? = some d → ∀ p ∈ StoreSwarm.pairsOf d,
    (s.nodes i).store.Covers p.1 p.2.version

theorem Gains.holds {s s' : Simulator ρ α} (h : s.Gains s') (hm : s.Holds i m) : s'.Holds i m :=
  fun d hd p hp => h i _ _ (hm d hd p hp)

/-- What it does, without a write, when a message is for the node with an address. -/
structure Handled (s s' : Simulator ρ α) (dst : String) (m : SimMessage α) : Prop where
  built : s'.built = s.built
  address : ∀ i, (s'.nodes i).address = (s.nodes i).address
  gains : s.Gains s'
  seen : ∀ i, ∀ x ∈ (s'.nodes i).seen, x ∈ (s.nodes i).seen ∨ x = m.id ∧ s'.Holds i m
  owner : ∀ i, s.owner dst = some i → m.id ∈ (s.nodes i).seen ∨ s'.Holds i m

theorem holds_apply (s : Simulator ρ α) (i : ℕ) (n : SwarmNode ρ α) (clock : ℚ)
    (membership : List PeerRecord) (hd : m.body.digest? = some d) :
    (s.setNode i (n.apply clock membership d)).Holds i m := by
  intro d' hd' p hp
  cases hd.symm.trans hd'
  simp only [setNode, Function.update_self]
  exact DistributedStore.covers_merge _ hp

/-- A node handles a message: it has seen it before, or merges the digest in it, or acts by
itself. -/
theorem onMessage_cases (s : Simulator ρ α) (i : ℕ) (m : SimMessage α) :
    m.id ∈ (s.nodes i).seen ∧ s.onMessage random inputs i m = s ∨
    (∃ membership d, m.body.digest? = some d ∧ s.onMessage random inputs i m =
      s.setNode i (((s.nodes i).remember m.id).apply s.clock membership d)) ∨
    m.body.digest? = none ∧ LocalMoves random inputs
      (s.setNode i ((s.nodes i).remember m.id)) (s.onMessage random inputs i m) := by
  unfold onMessage
  split
  · rename_i hseen
    exact .inl ⟨hseen, rfl⟩
  · rcases (s.setNode i ((s.nodes i).remember m.id)).route_cases random inputs i m with
      ⟨membership, d, hd, hroute⟩ | ⟨hd, hroute⟩
    · refine .inr (.inl ⟨membership, d, hd, ?_⟩)
      rw [hroute]
      simp only [setNode, Function.update_self, Function.update_idem]
    · exact .inr (.inr ⟨hd, hroute⟩)

theorem handled_onMessage (s : Simulator ρ α) (m : SimMessage α) (hi : s.owner dst = some i)
    (hsame : (s.onMessage random inputs i m).versionReadings = s.versionReadings) :
    s.Handled (s.onMessage random inputs i m) dst m := by
  rcases s.onMessage_cases random inputs i m with ⟨hseen, hs⟩ | ⟨membership, d, hd, hs⟩ |
    ⟨hnone, hmoves⟩
  · rw [hs]
    refine ⟨rfl, fun j => rfl, fun j k v hc => hc, fun j x hx => .inl hx, fun j hj => .inl ?_⟩
    cases hi.symm.trans hj
    exact hseen
  · have hholds := s.holds_apply i ((s.nodes i).remember m.id) s.clock membership hd
    rw [hs]
    refine ⟨rfl, fun j => ?_, fun j k v hc => ?_, fun j x hx => ?_, fun j hj => .inr ?_⟩
    · by_cases hji : j = i
      · subst hji
        simp only [setNode, Function.update_self]
        rfl
      · simp only [setNode, Function.update_of_ne hji]
    · by_cases hji : j = i
      · subst hji
        simp only [setNode, Function.update_self]
        exact hc.merge _
      · simp only [setNode, Function.update_of_ne hji]
        exact hc
    · by_cases hji : j = i
      · subst hji
        simp only [setNode, Function.update_self] at hx
        rcases (s.nodes j).mem_remember hx with hold | he
        · exact .inl hold
        · exact .inr ⟨he, hholds⟩
      · simp only [setNode, Function.update_of_ne hji] at hx
        exact .inl hx
    · cases hi.symm.trans hj
      exact hholds
  · have hacted := hmoves.acted.2 hsame
    have hholds : ∀ j, (s.onMessage random inputs i m).Holds j m := by
      intro j d hd
      cases hnone.symm.trans hd
    refine ⟨hacted.built, fun j => ?_, fun j k v hc => ?_, fun j x hx => ?_,
      fun j hj => .inr (hholds j)⟩ <;>
      obtain ⟨_, haddress, hstore, hseen⟩ := hacted.node j
    · rw [haddress]
      by_cases hji : j = i
      · subst hji
        simp only [setNode, Function.update_self]
        rfl
      · simp only [setNode, Function.update_of_ne hji]
    · rw [hstore]
      by_cases hji : j = i
      · subst hji
        simp only [setNode, Function.update_self]
        exact hc
      · simp only [setNode, Function.update_of_ne hji]
        exact hc
    · rw [hseen] at hx
      by_cases hji : j = i
      · subst hji
        simp only [setNode, Function.update_self] at hx
        exact ((s.nodes j).mem_remember hx).imp_right (fun he => ⟨he, hholds j⟩)
      · simp only [setNode, Function.update_of_ne hji] at hx
        exact .inl hx

theorem handled_deliver (s : Simulator ρ α) (item : Queued α)
    (hsame : (s.deliver random inputs item).versionReadings = s.versionReadings) :
    s.Handled (s.deliver random inputs item) item.dst item.message := by
  cases hi : s.owner item.dst with
  | none =>
    have hs : s.deliver random inputs item = s := by
      unfold deliver
      split
      · rfl
      · rename_i i hsome
        cases hi.symm.trans hsome
    rw [hs]
    exact ⟨rfl, fun j => rfl, fun j k v hc => hc, fun j x hx => .inl hx,
      fun j hj => by cases hi.symm.trans hj⟩
  | some i =>
    have hs : s.deliver random inputs item =
        (s.handed item).onMessage random inputs i item.message := by
      unfold deliver
      split
      · rename_i hnone
        cases hi.symm.trans hnone
      · rename_i j hsome
        cases hi.symm.trans hsome
        rfl
    rw [hs] at hsame ⊢
    have hhandled := (s.handed item).handled_onMessage random inputs item.message hi hsame
    exact ⟨hhandled.built, hhandled.address, hhandled.gains, hhandled.seen, hhandled.owner⟩

/-- When no other message has its id, a message that is delivered to a node is held by it
afterwards. -/
theorem holds_deliverAll {m : SimMessage α} {l : List (Queued α)} (s : Simulator ρ α) (i : ℕ)
    (hids : ∀ q ∈ l, q.message.id = m.id → q.message = m)
    (hseen : m.id ∈ (s.nodes i).seen → s.Holds i m)
    (hsame : (l.foldl (deliver random inputs) s).versionReadings = s.versionReadings)
    (hl : ∃ q ∈ l, q.message = m ∧ s.owner q.dst = some i) :
    (l.foldl (deliver random inputs) s).Holds i m := by
  induction l generalizing s with
  | nil =>
    obtain ⟨q, hq, _⟩ := hl
    cases hq
  | cons item l ih =>
    rw [List.foldl_cons] at hsame ⊢
    obtain ⟨given, hfirst⟩ := s.moves_deliver random inputs item [] []
    obtain ⟨given', hrest⟩ := (s.deliver random inputs item).moves_deliverAll random inputs l []
    have hle := Moves.versionReadings hfirst
    have hle' := Moves.versionReadings hrest
    dsimp only at hle hle'
    have hone : (s.deliver random inputs item).versionReadings = s.versionReadings :=
      le_antisymm (hsame ▸ hle') hle
    have hrestsame := hsame.trans hone.symm
    have hhandled := s.handled_deliver random inputs item hone
    have hseen' : m.id ∈ ((s.deliver random inputs item).nodes i).seen →
        (s.deliver random inputs item).Holds i m := by
      intro hx
      rcases hhandled.seen i _ hx with hold | ⟨hid, hholds⟩
      · exact hhandled.gains.holds (hseen hold)
      · rw [hids item List.mem_cons_self hid.symm] at hholds
        exact hholds
    obtain ⟨q, hq, rfl, howner⟩ := hl
    rcases List.mem_cons.1 hq with rfl | hq
    · have hgains : (s.deliver random inputs q).Gains
          (l.foldl (deliver random inputs) (s.deliver random inputs q)) :=
        Moves.gains hrest hrestsame
      apply hgains.holds
      rcases hhandled.owner i howner with hold | hholds
      · exact hhandled.gains.holds (hseen hold)
      · exact hholds
    · have howner' : (s.deliver random inputs item).owner q.dst = some i := by
        unfold owner
        rw [hhandled.built]
        simp only [hhandled.address]
        exact howner
      exact ih _ (fun q' hq' => hids q' (List.mem_cons_of_mem _ hq')) hseen' hrestsame
        ⟨q, hq, rfl, howner'⟩

end Simulator

theorem Body.digest?_of_gossip {body : Body α} (h : body.type = "gossip") :
    ∃ d, body.digest? = some d := by
  cases body with
  | GOSSIP membership store => exact ⟨store, rfl⟩
  | WELCOME membership store => exact ⟨store, rfl⟩
  | app type payload =>
    refine absurd ?_ type.2
    change type.1 = "gossip" at h
    rw [h]
    decide
  | JOIN => simp [Body.type] at h
  | PING => simp [Body.type] at h
  | PING_REQ => simp [Body.type] at h
  | ACK => simp [Body.type] at h

theorem Staffed.owner {s : Simulator ρ α} (h : Staffed s) (hk : k < s.built) :
    s.owner (addressOf k) = some k := by
  rw [Simulator.owner, List.find?_range_eq_some]
  refine ⟨by simp [h.address], List.mem_range.2 hk, fun j hj => ?_⟩
  have hne : addressOf j ≠ addressOf k := fun he => hj.ne (addressOf_injective he)
  simp [h.address, hne]

theorem mem_taken {random : PyRandom ρ} (hrandom : random.Shuffles) {s : Simulator ρ α}
    (hq : q ∈ s.network.queue) (hdue : q.deliverAt ≤ s.clock) : q ∈ (s.taken random).2 := by
  have hmem := (taken_perm hrandom s).mem_iff.2 hq
  rcases List.mem_append.1 hmem with hkeep | htaken
  · have hlate := (List.mem_filter.1 hkeep).2
    simp [hdue] at hlate
  · exact htaken

namespace Simulator

variable (random : PyRandom ρ) (inputs : Inputs) (handler : String → Task α → HandlerOutcome α)

/-- In the ticks of a round, node `i` sends its gossip to node `k`. -/
def Gossips (s : Simulator ρ α) (i k : ℕ) : Prop :=
  ∃ t events, (List.range s.built).foldlM (tick random inputs handler)
      { s with clock := s.clock + s.cfg.dt } = some t ∧
    t.history = s.history ++ events ∧ .send (idOf i) (addressOf k) "gossip" ∈ events

/-- What node `i` has comes to node `j` in some rounds: in each of them the node that has it keeps
it, or gossips to the next. -/
def Informs (s : Simulator ρ α) : ℕ → ℕ → ℕ → Prop
  | 0, i, j => i = j
  | rounds + 1, i, j => ∃ t k, s.quiesceRound random inputs handler = some t ∧
    (k = i ∨ s.Gossips random inputs handler i k) ∧ t.Informs rounds k j

variable {random inputs handler} {cfg : SimConfig} {s t : Simulator ρ α}
  {given : List (SimMessage α)}

/-- A node that is gossiped to in a round holds afterwards whatever the other held before it. -/
theorem covers_of_gossips (hids : Function.Injective inputs.messageId) (hrandom : random.Shuffles)
    (hreach : Moves random inputs ⟨init random cfg, [], []⟩ ⟨s, [], given⟩)
    (hlatency : s.network.maxLatency = 0)
    (hround : s.quiesceRound random inputs handler = some t)
    (hsame : t.versionReadings = s.versionReadings)
    (hgossips : s.Gossips random inputs handler i k) (hcovers : (s.nodes i).store.Covers key v) :
    (t.nodes k).store.Covers key v := by
  obtain ⟨u, events, hu, hhistory, hevent⟩ := hgossips
  obtain ⟨u', hu', ht⟩ := Option.bind_eq_some_iff.1 hround
  cases hu.symm.trans hu'
  cases ht
  -- the ticks
  have hlocal := local_ticks random inputs handler (fun j hj => List.mem_range.1 hj) hu
  have hticked : Moves random inputs ⟨s, [], given⟩ ⟨u, [], given⟩ :=
    Relation.ReflTransGen.head .advance hlocal.moves
  obtain ⟨given', hflush⟩ := u.moves_flushDue random inputs given
  have hle := Moves.versionReadings hticked
  have hle' := Moves.versionReadings hflush
  dsimp only at hle hle'
  have husame : u.versionReadings = s.versionReadings := le_antisymm (hsame ▸ hle') hle
  have hacted := hlocal.acted.2 husame
  obtain ⟨items, events', hqueue, hhistory', hitems, hsends⟩ := hacted.sends
  -- the message that was sent
  cases List.append_cancel_left (hhistory.symm.trans hhistory')
  obtain ⟨item, hitem, hsrc, hdst, htype⟩ := hsends _ _ _ hevent
  obtain ⟨hdue, ⟨n, hn, hid⟩, i', hsrc', hhonest⟩ := hitems item hitem
  obtain ⟨hstaffed, _⟩ := books_moves hrandom hreach
  obtain ⟨hustaffed, hubalanced⟩ := books_moves hrandom (hreach.trans hticked)
  have hi : i' = i := by
    rw [hsrc', hstaffed.id] at hsrc
    exact idOf_injective (congrArg String.toList hsrc)
  subst hi
  obtain ⟨d, hd⟩ := Body.digest?_of_gossip htype
  have hitemqueue : item ∈ u.network.queue := by
    rw [hqueue]
    exact List.mem_append_right _ hitem
  have htaken : item ∈ (u.taken random).2 := by
    apply mem_taken hrandom hitemqueue
    rw [hdue hlatency, hacted.clock]
  have hk : k < u.built := by
    have hrouted := hubalanced.routed item (List.mem_append_left _ hitemqueue)
    rw [hustaffed.transports, hdst] at hrouted
    obtain ⟨k', hk', he⟩ := List.mem_map.1 hrouted
    cases addressOf_injective he
    exact List.mem_range.1 hk'
  -- no other message has its id, and no node has seen it
  obtain ⟨posted, hregister⟩ := (Registered.init random cfg).moves hreach
  obtain ⟨posted', hregister'⟩ := (Registered.init random cfg).moves (hreach.trans hticked)
  have honly : ∀ q ∈ (u.taken random).2, q.message.id = item.message.id →
      q.message = item.message := by
    intro q hq hqid
    have hq' := u.taken_subset random (List.mem_append_right _ hq)
    exact hregister'.eq_of_id hids (hregister'.queued q (List.mem_append_left _ hq'))
      (hregister'.queued item (List.mem_append_left _ hitemqueue)) hqid
  have hunseen : item.message.id ∉ ((u.taken random).1.nodes k).seen := by
    change item.message.id ∉ (u.nodes k).seen
    rw [(hacted.node k).2.2.2, hid]
    exact hregister.unseen hids hn
  -- so the flush hands it over
  have hholds := (u.taken random).1.holds_deliverAll random inputs k honly
    (fun hx => absurd hx hunseen) (hsame.trans husame.symm)
    ⟨item, htaken, rfl, by rw [hdst]; exact hustaffed.owner hk⟩
  obtain ⟨e, he, hv⟩ := hcovers
  have hpair : (key, e) ∈ StoreSwarm.pairsOf d := by
    rw [hhonest d hd, StoreSwarm.pairsOf_digest]
    exact Dict.mem_items.2 he
  obtain ⟨e', he', hle''⟩ := hholds d hd _ hpair
  exact ⟨e', he', hv.trans hle''⟩

theorem covers_of_informs (hids : Function.Injective inputs.messageId)
    (hrandom : random.Shuffles)
    (hreach : Moves random inputs ⟨init random cfg, [], []⟩ ⟨s, [], given⟩)
    (hlatency : s.network.maxLatency = 0)
    (hquiesce : s.quiesce random inputs handler rounds = some t)
    (hsame : t.versionReadings = s.versionReadings)
    (hinforms : s.Informs random inputs handler rounds i j)
    (hcovers : (s.nodes i).store.Covers key v) : (t.nodes j).store.Covers key v := by
  induction rounds generalizing s given i with
  | zero =>
    cases hquiesce
    cases hinforms
    exact hcovers
  | succ rounds ih =>
    obtain ⟨u, k, hround, hk, hinforms⟩ := hinforms
    obtain ⟨u', hround', hquiesce⟩ := Option.bind_eq_some_iff.1 hquiesce
    cases hround.symm.trans hround'
    obtain ⟨given', hfirst⟩ := moves_quiesceRound random inputs handler hround given
    obtain ⟨given'', hrest⟩ := moves_quiesce random inputs handler hquiesce given'
    have hle := Moves.versionReadings hfirst
    have hle' := Moves.versionReadings hrest
    dsimp only at hle hle'
    have husame : u.versionReadings = s.versionReadings := le_antisymm (hsame ▸ hle') hle
    have hcovers' : (u.nodes k).store.Covers key v := by
      rcases hk with rfl | hk
      · exact Moves.gains hfirst husame k key v hcovers
      · exact covers_of_gossips hids hrandom hreach hlatency hround husame hk hcovers
    exact ih (hreach.trans hfirst) (Moves.maxLatency hfirst husame hlatency) hquiesce
      (hsame.trans husame.symm) hinforms hcovers'

end Simulator

/-- A node that has not been started holds nothing. -/
def Simulator.Blank (s : Simulator ρ α) : Prop :=
  ∀ i, s.built ≤ i → ∀ k, (s.nodes i).store.data.get k = none

namespace Simulator.Blank

variable {random : PyRandom ρ} {inputs : Inputs} {s s' : Simulator ρ α}

theorem init (random : PyRandom ρ) (cfg : SimConfig) :
    (Simulator.init random cfg : Simulator ρ α).Blank := fun _ _ _ => rfl

theorem same (h : s.Blank) (hbuilt : s.built ≤ s'.built)
    (hstore : ∀ i, s.built ≤ i → (s'.nodes i).store = (s.nodes i).store) : s'.Blank := by
  intro i hi k
  rw [hstore i (hbuilt.trans hi)]
  exact h i (hbuilt.trans hi) k

theorem rest (h : s.Blank) (hs : s.Rests s') : s'.Blank :=
  h.same hs.built (fun i _ => by rw [hs.nodes])

theorem setNode (h : s.Blank) (hn : i < s.built ∨ n.store = (s.nodes i).store) :
    (s.setNode i n).Blank := by
  refine h.same le_rfl (fun j hj => ?_)
  by_cases hji : j = i
  · subst hji
    simp only [Simulator.setNode, Function.update_self]
    exact hn.resolve_left (not_lt.2 hj)
  · simp only [Simulator.setNode, Function.update_of_ne hji]

theorem act (h : s.Blank) (hmove : LocalMove random inputs s s') : s'.Blank := by
  cases hmove with
  | drift hd => exact h.same hd.built.ge (fun i _ => by rw [hd.nodes])
  | node hn => exact h.setNode (.inr hn.store)
  | write hi hs =>
    obtain ⟨clock, _, hs⟩ := Option.bind_eq_some_iff.1 hs
    cases hs
    exact h.setNode (.inl hi)
  | erase hi hs =>
    unfold Simulator.erase at hs
    split at hs
    · cases hs
      exact h
    · obtain ⟨clock, _, hs⟩ := Option.bind_eq_some_iff.1 hs
      cases hs
      exact h.setNode (.inl hi)
  | post =>
    obtain ⟨hnodes, hbuilt⟩ := s.nodes_post random inputs _ _ _
    exact h.same hbuilt.ge (fun i _ => by rw [hnodes])

theorem moves {w w' : Midway ρ α} (h : w.sim.Blank) (hmoves : Moves random inputs w w') :
    w'.sim.Blank := by
  induction hmoves with
  | refl => exact h
  | tail _ hmove ih =>
    cases hmove with
    | act hlocal => exact ih.act hlocal
    | advance => exact ih.rest .advance
    | opened => exact ih.rest .opened
    | cutOrHeal => exact ih.rest (.cutOrHeal random)
    | crash => exact ih.rest (.crash random)
    | restart => exact ih.rest (.restart random inputs)
    | calm => exact ih.rest .calm
    | take => exact ih
    | hand => exact ih
    | strand => exact ih
    | remember => exact ih.setNode (.inr rfl)
    | hear _ _ hi => exact ih.setNode (.inl hi)

end Simulator.Blank

namespace Simulator

variable {random : PyRandom ρ} {inputs : Inputs} {handler : String → Task α → HandlerOutcome α}
  {cfg : SimConfig} {calls : List (SimCall α)} {s s' : Simulator ρ α}

/-- `quiesce` makes the nodes agree. While no version is made, nothing newer than what the nodes
hold is on its way at its start, and what each node has comes to each other by the gossip of its
rounds, every node has the newest entry of each key that any node had, and no other. -/
theorem quiesce_converges [PyNone α] (hids : Function.Injective inputs.messageId)
    (hrandom : random.Shuffles) (h : driven random inputs handler cfg calls = some s)
    (hcall : s.call random inputs handler (.quiesce rounds) = some s')
    (hsame : s'.versionReadings = s.versionReadings)
    (hflight : ∀ q ∈ s.network.queue, ∀ d, q.message.body.digest? = some d →
      ∀ p ∈ StoreSwarm.pairsOf d, ∃ i < s.built, (s.nodes i).store.Covers p.1 p.2.version)
    (hinforms : ∀ i < s.built, ∀ j < s.built, s.calm.Informs random inputs handler rounds i j) :
    (∀ i < s.built, ∀ k, IsNewest Entry.version
      {e | ∃ j < s.built, (s.nodes j).store.data.get k = some e}
      ((s'.nodes i).store.data.get k)) ∧
    ∀ i < s.built, ∀ j < s.built, ∀ k,
      (s'.nodes i).store.data.get k = (s'.nodes j).store.data.get k := by
  obtain ⟨given, hmoves⟩ := moves_driven random inputs handler h
  have hreach : Moves random inputs ⟨init random cfg, [], []⟩ ⟨s.calm, [], given⟩ :=
    hmoves.tail .calm
  -- a version determines its entry
  obtain ⟨past, st, hrun, hmirrors⟩ := (Mirrors.init random cfg).moves hmoves
  have htraced := StoreSwarm.Traced.of_run hrun
  have hwritten : ∀ j k e, (s.nodes j).store.data.get k = some e → (k, e) ∈ st.written := by
    intro j k e he
    apply htraced.prov.held (idOf j).toList
    rw [hmirrors.store]
    exact he
  -- upper bound: no entry comes up that was neither held nor on its way
  have hblank : s.Blank := (Blank.init random cfg).moves hmoves
  obtain ⟨given', hquiesce⟩ := moves_quiesce random inputs handler hcall []
  have hwithin : Within {p | p ∈ st.written ∧ ∃ i < s.built,
      (s.nodes i).store.Covers p.1 p.2.version} (⟨s.calm, [], []⟩ : Midway ρ α) := by
    constructor
    · intro j k e he
      refine ⟨hwritten j k e he, j, ?_, e, he, le_rfl⟩
      by_contra hj
      cases (hblank j (not_lt.1 hj) k).symm.trans he
    · intro d hd p hp
      rcases hd with ⟨q, hq, hd⟩ | ⟨m, hm, _⟩
      · have hq' : q ∈ s.network.queue := by
          rw [List.append_nil] at hq
          exact hq
        have hdigest := hmirrors.queued q (List.mem_append_left _ hq') d hd
        exact ⟨htraced.digests d hdigest p hp, hflight q hq' d hd p hp⟩
      · cases hm
  have hbound := (hwithin.moves hquiesce hsame).held
  -- lower bound: what a node held, every node covers
  have hcovers : ∀ i < s.built, ∀ j < s.built, ∀ k v, (s.nodes j).store.Covers k v →
      (s'.nodes i).store.Covers k v := fun i hi j hj k v hc =>
    covers_of_informs hids hrandom hreach rfl hcall hsame (hinforms j hj i hi) hc
  have hnewest : ∀ i < s.built, ∀ k, IsNewest Entry.version
      {e | ∃ j < s.built, (s.nodes j).store.data.get k = some e}
      ((s'.nodes i).store.data.get k) := by
    intro i hi k
    cases hk : (s'.nodes i).store.data.get k with
    | none =>
      apply Set.eq_empty_of_forall_notMem
      rintro e ⟨j, hj, he⟩
      obtain ⟨e', he', _⟩ := hcovers i hi j hj k e.version ⟨e, he, le_rfl⟩
      cases hk.symm.trans he'
    | some e =>
      have hle : ∀ x ∈ {e | ∃ j < s.built, (s.nodes j).store.data.get k = some e},
          x.version ≤ e.version := by
        rintro x ⟨j, hj, hx⟩
        obtain ⟨e', he', hxe⟩ := hcovers i hi j hj k x.version ⟨x, hx, le_rfl⟩
        cases hk.symm.trans he'
        exact hxe
      obtain ⟨he, j, hj, x, hx, hex⟩ := hbound i k e hk
      have hversion : e.version = x.version := le_antisymm hex (hle x ⟨j, hj, hx⟩)
      have heq := htraced.prov.eq_of_version he (hwritten j k x hx) hversion
      cases heq
      exact ⟨⟨j, hj, hx⟩, hle⟩
  refine ⟨hnewest, fun i hi j hj k => ?_⟩
  apply (hnewest i hi k).unique (hnewest j hj k)
  rintro x ⟨i', _, hx⟩ y ⟨j', _, hy⟩ hxy
  cases htraced.prov.eq_of_version (hwritten i' k x hx) (hwritten j' k y hy) hxy
  rfl

/-- Both nodes have written a key and not yet gossiped. -/
def bothWritten : Option (Simulator ℕ (Option ℕ)) :=
  driven firstDraws (.timed [1, 2] 'a') echo calmPair
    [.set 1 ['k'] (.plain (some 2)), .set 0 ['k'] (.plain (some 1))]

/-- The history goes on in the ticks of a round, and both nodes gossip to the other. -/
def bothGossip (s : Simulator ℕ (Option ℕ)) : Option Bool :=
  ((List.range s.built).foldlM (tick firstDraws (.timed [1, 2] 'a') echo)
    { s with clock := s.clock + s.cfg.dt }).map (fun t =>
      decide (t.history.take s.history.length = s.history ∧
        .send (idOf 0) (addressOf 1) "gossip" ∈ t.history.drop s.history.length ∧
        .send (idOf 1) (addressOf 0) "gossip" ∈ t.history.drop s.history.length))

theorem gossips_of_bothGossip {s : Simulator ℕ (Option ℕ)} (h : s.bothGossip = some true)
    (hi : i < 2) (hj : j < 2) :
    j = i ∨ s.Gossips firstDraws (.timed [1, 2] 'a') echo i j := by
  obtain ⟨t, ht, hevents⟩ := Option.map_eq_some_iff.1 h
  obtain ⟨hhistory, hzero, hone⟩ := of_decide_eq_true hevents
  have happend : t.history = s.history ++ t.history.drop s.history.length := by
    conv_lhs => rw [← List.take_append_drop s.history.length t.history, hhistory]
  have hsame : i = 0 ∧ j = 1 ∨ i = 1 ∧ j = 0 ∨ j = i := by omega
  rcases hsame with ⟨rfl, rfl⟩ | ⟨rfl, rfl⟩ | rfl
  · exact .inr ⟨t, _, ht, happend, hzero⟩
  · exact .inr ⟨t, _, ht, happend, hone⟩
  · exact .inl rfl

theorem quiesce_converges_of_bothWritten : ∃ s s' : Simulator ℕ (Option ℕ),
    bothWritten = some s ∧ s.call firstDraws (.timed [1, 2] 'a') echo (.quiesce 1) = some s' ∧
      (s.nodes 0).store.data.get ['k'] ≠ (s.nodes 1).store.data.get ['k'] ∧
      ∀ k, (s'.nodes 0).store.data.get k = (s'.nodes 1).store.data.get k := by
  have hrun : bothWritten.map (fun s => (decide (s.built = 2 ∧ s.network.queue.length = 0 ∧
      (s.nodes 0).store.data.get ['k'] ≠ (s.nodes 1).store.data.get ['k']), s.versionReadings,
      (s.call firstDraws (.timed [1, 2] 'a') echo (.quiesce 1)).map versionReadings,
      s.calm.bothGossip)) = some (true, 2, some 2, some true) := by decide +kernel
  obtain ⟨s, hs, he⟩ := Option.map_eq_some_iff.1 hrun
  simp only [Prod.mk.injEq, decide_eq_true_eq] at he
  obtain ⟨⟨hbuilt, hqueue, hdiffer⟩, hversions, hcall, hgossip⟩ := he
  obtain ⟨s', hs', hversions'⟩ := Option.map_eq_some_iff.1 hcall
  have hids : Function.Injective (Inputs.timed [1, 2] 'a').messageId := by
    intro j k h
    rw [Inputs.timed, String.ofList_inj, List.replicate_left_inj] at h
    exact h
  have hinforms : ∀ i < s.built, ∀ j < s.built,
      s.calm.Informs firstDraws (.timed [1, 2] 'a') echo 1 i j := by
    rw [hbuilt]
    intro i hi j hj
    obtain ⟨t, ht, hrest⟩ := Option.bind_eq_some_iff.1 hs'
    exact ⟨t, j, ht, gossips_of_bothGossip hgossip hi hj, rfl⟩
  have hflight : ∀ q ∈ s.network.queue, ∀ d, q.message.body.digest? = some d →
      ∀ p ∈ StoreSwarm.pairsOf d, ∃ i < s.built,
        (s.nodes i).store.Covers p.1 p.2.version := by
    rw [List.eq_nil_of_length_eq_zero hqueue]
    intro q hq
    cases hq
  obtain ⟨_, hagree⟩ := quiesce_converges hids firstDraws_shuffles hs hs'
    (hversions'.trans hversions.symm) hflight hinforms
  exact ⟨s, s', hs, hs', hdiffer, hagree 0 (by omega) 1 (by omega)⟩

end Simulator

end Simulation

end Suprime
