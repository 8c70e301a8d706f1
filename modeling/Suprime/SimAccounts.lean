import Suprime.SimStores

namespace Suprime
set_option autoImplicit true

namespace Simulation

variable {ρ α : Type}

/-- `shuffle` puts the positions of a list in some order. -/
def PyRandom.Shuffles (random : PyRandom ρ) : Prop :=
  ∀ n r, (random.shuffle n r).1.Perm (List.range n)

def Queued.Is (src dst type : String) (item : Queued α) : Prop :=
  item.message.src = src ∧ item.dst = dst ∧ item.message.body.type = type

instance (src dst type : String) (item : Queued α) : Decidable (item.Is src dst type) :=
  inferInstanceAs (Decidable (_ ∧ _ ∧ _))

def SimEvent.isDeliver : SimEvent → Bool
  | .deliver _ _ _ => true
  | _ => false

def SimEvent.isDrop : SimEvent → Bool
  | .drop _ _ _ => true
  | _ => false

def SimEvent.IsFault (e : SimEvent) : Prop :=
  e = .heal ∨ (∃ left right, e = .partition left right) ∨ (∃ nodeId, e = .crash nodeId) ∨
    ∃ nodeId, e = .restart nodeId

/-- The nodes that were built have their names, and enough of them are alive. -/
structure Staffed (s : Simulator ρ α) : Prop where
  id : ∀ i, (s.nodes i).id = idOf i
  address : ∀ i, (s.nodes i).address = addressOf i
  transports : s.network.transports = (List.range s.built).map addressOf
  crashed : ∀ c ∈ s.crashed, ∃ i < s.built, c = idOf i
  alive : min 2 s.built ≤ s.live.length

/-- Every message that was sent has been delivered or is on its way to a node that exists, and the
counters say how many were delivered and dropped. -/
structure Balanced (s : Simulator ρ α) (due : List (Queued α)) : Prop where
  sent : ∀ src dst type, s.history.count (.send src dst type) =
    s.history.count (.deliver src dst type) +
      (s.network.queue ++ due).countP (·.Is src dst type)
  delivered : s.network.delivered = s.history.countP SimEvent.isDeliver
  dropped : s.network.dropped = s.history.countP SimEvent.isDrop
  routed : ∀ item ∈ s.network.queue ++ due, item.dst ∈ s.network.transports

theorem picked_range (l : List β) : picked l (List.range l.length) = l := by
  induction l with
  | nil => rfl
  | cons a l ih =>
    simp only [picked, List.length_cons, List.range_succ_eq_map, List.filterMap_cons,
      List.getElem?_cons_zero, List.filterMap_map]
    exact congrArg (a :: ·) ih

theorem picked_perm {l : List β} (h : positions.Perm (List.range l.length)) :
    (picked l positions).Perm l := by
  have hpick := h.filterMap (fun i => l[i]?)
  rw [← picked, ← picked, picked_range] at hpick
  exact hpick

theorem taken_perm {random : PyRandom ρ} (hrandom : random.Shuffles) (s : Simulator ρ α) :
    ((s.taken random).1.network.queue ++ (s.taken random).2).Perm s.network.queue := by
  have hpicked := picked_perm (l := s.network.queue.filter (fun item => item.deliverAt ≤ s.clock))
    (hrandom _ s.rng)
  have hsorted := (List.perm_insertionSort (fun x y : Queued α => x.deliverAt ≤ y.deliverAt)
    (picked _ _)).trans hpicked
  have hkeep : (s.taken random).1.network.queue =
      s.network.queue.filter (fun item => !decide (item.deliverAt ≤ s.clock)) := by
    simp only [Simulator.taken, decide_not]
  rw [hkeep]
  refine (List.perm_append_comm.trans (hsorted.append_right _)).trans ?_
  exact List.filter_append_perm (fun item : Queued α => decide (item.deliverAt ≤ s.clock)) _

namespace Staffed

variable {s s' : Simulator ρ α}

theorem init (random : PyRandom ρ) (cfg : SimConfig) :
    Staffed (Simulator.init random cfg : Simulator ρ α) where
  id i := rfl
  address i := rfl
  transports := rfl
  crashed c hc := by cases hc
  alive := Nat.le_of_eq rfl

theorem same (h : Staffed s) (hid : ∀ i, (s'.nodes i).id = (s.nodes i).id)
    (haddress : ∀ i, (s'.nodes i).address = (s.nodes i).address) (hbuilt : s'.built = s.built)
    (htransports : s'.network.transports = s.network.transports)
    (hcrashed : s'.crashed ⊆ s.crashed) : Staffed s' where
  id i := (hid i).trans (h.id i)
  address i := (haddress i).trans (h.address i)
  transports := by
    rw [htransports, hbuilt]
    exact h.transports
  crashed c hc := by
    rw [hbuilt]
    exact h.crashed c (hcrashed hc)
  alive := by
    have hlive : s.live ⊆ s'.live := by
      intro i hi
      simp only [Simulator.live, List.mem_filter, decide_eq_true_eq, hbuilt, hid] at hi ⊢
      exact ⟨hi.1, fun hc => hi.2 (hcrashed hc)⟩
    rw [hbuilt]
    exact h.alive.trans ((List.nodup_range.filter _).subperm hlive).length_le

theorem setNode (h : Staffed s) (hid : n.id = (s.nodes i).id)
    (haddress : n.address = (s.nodes i).address) : Staffed (s.setNode i n) := by
  refine h.same (fun j => ?_) (fun j => ?_) rfl rfl (fun c hc => hc)
  · by_cases hji : j = i
    · subst hji
      simp only [Simulator.setNode, Function.update_self]
      exact hid
    · simp only [Simulator.setNode, Function.update_of_ne hji]
  · by_cases hji : j = i
    · subst hji
      simp only [Simulator.setNode, Function.update_self]
      exact haddress
    · simp only [Simulator.setNode, Function.update_of_ne hji]

theorem enqueue (h : Staffed s) (random : PyRandom ρ) (src dst : String) (m : SimMessage α) :
    Staffed (s.enqueue random src dst m) := by
  rcases s.enqueue_cases random src dst m with hs | ⟨_, hs⟩ | ⟨_, _, _, _, hs⟩ <;>
  · rw [hs]
    exact h.same (fun _ => rfl) (fun _ => rfl) rfl rfl (fun c hc => hc)

theorem crash (h : Staffed s) (hvictim : victim ∈ s.live) (hlive : 2 < s.live.length)
    (hs : s'.nodes = s.nodes) (hbuilt : s'.built = s.built)
    (htransports : s'.network.transports = s.network.transports)
    (hcrashed : s'.crashed = s.crashed ++ [(s.nodes victim).id]) : Staffed s' where
  id i := by
    rw [hs]
    exact h.id i
  address i := by
    rw [hs]
    exact h.address i
  transports := by
    rw [htransports, hbuilt]
    exact h.transports
  crashed c hc := by
    rw [hcrashed] at hc
    rw [hbuilt]
    rcases List.mem_append.1 hc with hc | hc
    · exact h.crashed c hc
    · have hrange := List.mem_range.1 (List.mem_of_mem_filter hvictim)
      exact ⟨victim, hrange, (List.mem_singleton.1 hc).trans (h.id victim)⟩
  alive := by
    have hnodup : s.live.Nodup := List.nodup_range.filter _
    have hrest : s.live.erase victim ⊆ s'.live := by
      intro i hi
      obtain ⟨hne, hi⟩ := hnodup.mem_erase_iff.1 hi
      simp only [Simulator.live, List.mem_filter, decide_eq_true_eq, hbuilt, hs, hcrashed] at hi ⊢
      refine ⟨hi.1, fun hc => ?_⟩
      rcases List.mem_append.1 hc with hc | hc
      · exact hi.2 hc
      · rw [List.mem_singleton, h.id, h.id] at hc
        exact hne (idOf_injective (congrArg String.toList hc))
    have hle := ((hnodup.erase victim).subperm hrest).length_le
    rw [List.length_erase_of_mem hvictim] at hle
    omega

theorem opened (h : Staffed s) : Staffed s.opened where
  id := h.id
  address := h.address
  transports := by
    change s.network.transports ++ [(s.nodes s.built).address] = _
    rw [h.transports, h.address, Simulator.opened, List.range_succ, List.map_append]
    rfl
  crashed c hc := by
    obtain ⟨i, hi, he⟩ := h.crashed c hc
    exact ⟨i, hi.trans (Nat.lt_succ_self _), he⟩
  alive := by
    have hnew : (s.nodes s.built).id ∉ s.crashed := by
      intro hc
      obtain ⟨i, hi, he⟩ := h.crashed _ hc
      rw [h.id] at he
      exact hi.ne' (idOf_injective (congrArg String.toList he))
    have hlive : s.opened.live = s.live ++ [s.built] := by
      simp only [Simulator.live, Simulator.opened, List.range_succ, List.filter_append,
        List.filter_cons, hnew, not_false_eq_true, decide_true, if_true, List.filter_nil]
      rfl
    have halive := h.alive
    rw [hlive, List.length_append, List.length_singleton]
    change min 2 (s.built + 1) ≤ _
    omega

end Staffed

namespace Balanced

variable {s s' : Simulator ρ α} {due due' : List (Queued α)}

theorem init (random : PyRandom ρ) (cfg : SimConfig) :
    Balanced (Simulator.init random cfg : Simulator ρ α) [] where
  sent src dst type := rfl
  delivered := rfl
  dropped := rfl
  routed item h := by cases h

theorem same (h : Balanced s due) (hhistory : s'.history = s.history ++ events)
    (hevents : ∀ e ∈ events, e.IsFault) (hdelivered : s'.network.delivered = s.network.delivered)
    (hdropped : s'.network.dropped = s.network.dropped)
    (hqueue : (s'.network.queue ++ due').Perm (s.network.queue ++ due))
    (htransports : s.network.transports ⊆ s'.network.transports) : Balanced s' due' := by
  have hcount : ∀ e : SimEvent, ¬ e.IsFault → events.count e = 0 := by
    intro e he
    exact List.count_eq_zero.2 (fun hmem => he (hevents e hmem))
  have hcountP : ∀ p : SimEvent → Bool, (∀ e, e.IsFault → p e = false) →
      events.countP p = 0 := by
    intro p hp
    refine List.countP_eq_zero.2 (fun e he => ?_)
    rw [hp e (hevents e he)]
    exact Bool.false_ne_true
  have hnone : ∀ p : SimEvent → Bool, (p = SimEvent.isDeliver ∨ p = SimEvent.isDrop) →
      ∀ e : SimEvent, e.IsFault → p e = false := by
    rintro p (rfl | rfl) e (rfl | ⟨_, _, rfl⟩ | ⟨_, rfl⟩ | ⟨_, rfl⟩) <;> rfl
  refine ⟨fun src dst type => ?_, ?_, ?_, fun item hitem => ?_⟩
  · have hsend : ¬ (SimEvent.send src dst type).IsFault := by
      rintro (h | ⟨_, _, h⟩ | ⟨_, h⟩ | ⟨_, h⟩) <;> cases h
    have hdeliver : ¬ (SimEvent.deliver src dst type).IsFault := by
      rintro (h | ⟨_, _, h⟩ | ⟨_, h⟩ | ⟨_, h⟩) <;> cases h
    rw [hhistory, List.count_append, List.count_append, hcount _ hsend, hcount _ hdeliver,
      hqueue.countP_eq]
    exact h.sent src dst type
  · rw [hhistory, hdelivered, List.countP_append, hcountP _ (hnone _ (.inl rfl))]
    exact h.delivered
  · rw [hhistory, hdropped, List.countP_append, hcountP _ (hnone _ (.inr rfl))]
    exact h.dropped
  · exact htransports (h.routed item (hqueue.mem_iff.1 hitem))

theorem quiet (h : Balanced s due) (hhistory : s'.history = s.history)
    (hdelivered : s'.network.delivered = s.network.delivered)
    (hdropped : s'.network.dropped = s.network.dropped)
    (hqueue : s'.network.queue = s.network.queue)
    (htransports : s.network.transports ⊆ s'.network.transports) : Balanced s' due := by
  have hnone : ∀ e ∈ ([] : List SimEvent), e.IsFault := fun e he => by cases he
  refine h.same ?_ hnone hdelivered hdropped ?_ htransports
  · rw [hhistory, List.append_nil]
  · rw [hqueue]

theorem countP_is (item : Queued α) (a b c : String) :
    [item].countP (·.Is a b c) =
        [SimEvent.send item.message.src item.dst item.message.body.type].count (.send a b c) ∧
      [item].countP (·.Is a b c) =
        [SimEvent.deliver item.message.src item.dst item.message.body.type].count
          (.deliver a b c) := by
  by_cases h : item.Is a b c
  · obtain ⟨rfl, rfl, rfl⟩ := h
    simp [Queued.Is]
  · unfold Queued.Is at h
    simp [Queued.Is, h]

theorem enqueue (random : PyRandom ρ) (h : Balanced s due) (src dst : String) (m : SimMessage α) :
    Balanced (s.enqueue random src dst m) due := by
  rcases s.enqueue_cases random src dst m with hs | ⟨rng, hs⟩ | ⟨rng, deliverAt, hdst, _, hs⟩
  · rw [hs]
    refine ⟨fun a b c => ?_, ?_, ?_, h.routed⟩
    · simpa [Simulator.log, List.count_append] using h.sent a b c
    · simpa [Simulator.log, List.countP_append, SimEvent.isDeliver] using h.delivered
    · simpa [Simulator.log, List.countP_append, SimEvent.isDrop] using h.dropped
  · rw [hs]
    refine ⟨fun a b c => ?_, ?_, ?_, h.routed⟩
    · simpa [Simulator.log, List.count_append] using h.sent a b c
    · simpa [Simulator.log, List.countP_append, SimEvent.isDeliver] using h.delivered
    · simpa [Simulator.log, List.countP_append, SimEvent.isDrop] using h.dropped
  · rw [hs]
    refine ⟨fun a b c => ?_, ?_, ?_, fun item hitem => ?_⟩
    · have hsent := h.sent a b c
      have hone := (countP_is ⟨deliverAt, s.network.seq + 1, dst, m⟩ a b c).1
      dsimp only at hone
      have hnone : [SimEvent.send m.src dst m.body.type].count (.deliver a b c) = 0 := by simp
      simp only [Simulator.log, List.count_append, List.countP_append] at hsent ⊢
      rw [hone, hnone]
      omega
    · simpa [Simulator.log, List.countP_append, SimEvent.isDeliver] using h.delivered
    · simpa [Simulator.log, List.countP_append, SimEvent.isDrop] using h.dropped
    · rcases List.mem_append.1 hitem with hitem | hitem
      · rcases List.mem_append.1 hitem with hitem | hitem
        · exact h.routed item (List.mem_append_left _ hitem)
        · rw [List.mem_singleton.1 hitem]
          exact hdst
      · exact h.routed item (List.mem_append_right _ hitem)

theorem hand (h : Balanced s (item :: due)) : Balanced (s.handed item) due where
  sent a b c := by
    have hsent := h.sent a b c
    have hone := (countP_is item a b c).2
    have hnone : [SimEvent.deliver item.message.src item.dst item.message.body.type].count
        (.send a b c) = 0 := by simp
    rw [List.countP_append, ← List.singleton_append, List.countP_append] at hsent
    simp only [Simulator.handed, Simulator.log, List.count_append, List.countP_append]
    rw [hnone, ← hone]
    omega
  delivered := by
    have hdelivered := h.delivered
    simp only [Simulator.handed, Simulator.log, List.countP_append, List.countP_singleton,
      SimEvent.isDeliver, if_true]
    omega
  dropped := by
    simpa [Simulator.handed, Simulator.log, List.countP_append, SimEvent.isDrop] using h.dropped
  routed x hx := by
    refine h.routed x ?_
    rcases List.mem_append.1 hx with hx | hx
    · exact List.mem_append_left _ hx
    · exact List.mem_append_right _ (List.mem_cons_of_mem _ hx)

end Balanced

theorem books_wrote {s : Simulator ρ α} (hstaffed : Staffed s) (h : Balanced s due) (i : ℕ)
    (store : TaskStore α) : Staffed (s.wrote i store) ∧ Balanced (s.wrote i store) due := by
  have hnode : Staffed (s.setNode i { s.nodes i with store }) := hstaffed.setNode rfl rfl
  exact ⟨hnode.same (fun _ => rfl) (fun _ => rfl) rfl rfl (fun c hc => hc),
    h.quiet rfl rfl rfl rfl (fun x hx => hx)⟩

theorem books_local {random : PyRandom ρ} {s s' : Simulator ρ α} (hstaffed : Staffed s)
    (h : Balanced s due) (hmove : LocalMove random inputs s s') :
    Staffed s' ∧ Balanced s' due := by
  cases hmove with
  | drift hd =>
    refine ⟨hstaffed.same (fun i => by rw [hd.nodes]) (fun i => by rw [hd.nodes]) hd.built
      (by rw [hd.network]) (fun c hc => hd.crashed ▸ hc), ?_⟩
    refine h.quiet hd.history ?_ ?_ ?_ (fun x hx => ?_) <;> rw [hd.network]
    exact hx
  | node hn =>
    exact ⟨hstaffed.setNode hn.id hn.address, h.quiet rfl rfl rfl rfl (fun x hx => hx)⟩
  | write _ hs =>
    obtain ⟨clock, _, hs⟩ := Option.bind_eq_some_iff.1 hs
    cases hs
    exact books_wrote hstaffed h _ _
  | erase _ hs =>
    unfold Simulator.erase at hs
    split at hs
    · cases hs
      exact ⟨hstaffed, h⟩
    · obtain ⟨clock, _, hs⟩ := Option.bind_eq_some_iff.1 hs
      cases hs
      exact books_wrote hstaffed h _ _
  | @post _ i dsts body hbody =>
    refine s.post_induction random inputs (I := fun t => Staffed t ∧ Balanced t due) i dsts body
      ⟨hstaffed.same (fun _ => rfl) (fun _ => rfl) rfl rfl (fun c hc => hc),
        h.quiet rfl rfl rfl rfl (fun x hx => hx)⟩ (fun t _ ht dst => ?_)
    exact ⟨ht.1.enqueue random _ _ _, ht.2.enqueue random _ _ _⟩

theorem books_move {random : PyRandom ρ} (hrandom : random.Shuffles) {w w' : Midway ρ α}
    (hstaffed : Staffed w.sim) (h : Balanced w.sim w.due) (hmove : Move random inputs w w') :
    Staffed w'.sim ∧ Balanced w'.sim w'.due := by
  cases hmove with
  | act hlocal => exact books_local hstaffed h hlocal
  | advance =>
    exact ⟨hstaffed.same (fun _ => rfl) (fun _ => rfl) rfl rfl (fun c hc => hc),
      h.quiet rfl rfl rfl rfl (fun x hx => hx)⟩
  | opened =>
    exact ⟨hstaffed.opened, h.quiet rfl rfl rfl rfl (List.subset_append_left _ _)⟩
  | @cutOrHeal s due given =>
    obtain ⟨rng, partitions, events, hs, hevents⟩ := s.cutOrHeal_cases random
    dsimp only
    rw [hs]
    refine ⟨hstaffed.same (fun _ => rfl) (fun _ => rfl) rfl rfl (fun c hc => hc), ?_⟩
    refine h.same rfl (fun e he => ?_) rfl rfl (.refl _) (fun x hx => hx)
    exact (hevents e he).imp id .inl
  | @crash s due given =>
    dsimp only
    rcases s.crash_cases random with ⟨rng, hs⟩ | ⟨rng, victim, hvictim, hlive, hs⟩
    · rw [hs]
      exact ⟨hstaffed.same (fun _ => rfl) (fun _ => rfl) rfl rfl (fun c hc => hc),
        h.quiet rfl rfl rfl rfl (fun x hx => hx)⟩
    · rw [hs]
      refine ⟨hstaffed.crash hvictim hlive rfl rfl rfl rfl, ?_⟩
      refine h.same rfl (fun e he => ?_) rfl rfl (.refl _) (fun x hx => hx)
      exact .inr (.inr (.inl ⟨_, List.mem_singleton.1 he⟩))
  | @restart s due given =>
    dsimp only
    rcases s.restart_cases random inputs with ⟨rng, hs⟩ | ⟨rng, reborn, hs⟩
    · rw [hs]
      exact ⟨hstaffed.same (fun _ => rfl) (fun _ => rfl) rfl rfl (fun c hc => hc),
        h.quiet rfl rfl rfl rfl (fun x hx => hx)⟩
    · rw [hs]
      refine ⟨hstaffed.same (fun _ => rfl) (fun _ => rfl) rfl rfl
        (fun c hc => List.mem_of_mem_erase hc), ?_⟩
      refine h.same rfl (fun e he => ?_) rfl rfl (.refl _) (fun x hx => hx)
      exact .inr (.inr (.inr ⟨_, List.mem_singleton.1 he⟩))
  | calm =>
    exact ⟨hstaffed.same (fun _ => rfl) (fun _ => rfl) rfl rfl (fun c hc => by cases hc),
      h.quiet rfl rfl rfl rfl (fun x hx => hx)⟩
  | @take s given =>
    refine ⟨hstaffed.same (fun _ => rfl) (fun _ => rfl) rfl rfl (fun c hc => hc), ?_⟩
    have hnone : ∀ e ∈ ([] : List SimEvent), e.IsFault := fun e he => by cases he
    refine h.same (List.append_nil _).symm hnone rfl rfl ?_ (fun x hx => hx)
    rw [List.append_nil]
    exact taken_perm hrandom s
  | hand hi =>
    exact ⟨hstaffed.same (fun _ => rfl) (fun _ => rfl) rfl rfl (fun c hc => hc), h.hand⟩
  | @strand s item due given hi =>
    -- every message on its way is for the address of a node
    have hdst := h.routed item (List.mem_append_right _ List.mem_cons_self)
    rw [hstaffed.transports] at hdst
    obtain ⟨i, hrange, haddress⟩ := List.mem_map.1 hdst
    have hother := List.find?_eq_none.1 hi i hrange
    rw [decide_eq_true_eq, hstaffed.address] at hother
    exact absurd haddress hother
  | remember hm => exact ⟨hstaffed.setNode rfl rfl, h.quiet rfl rfl rfl rfl (fun x hx => hx)⟩
  | hear hm hd _ => exact ⟨hstaffed.setNode rfl rfl, h.quiet rfl rfl rfl rfl (fun x hx => hx)⟩

theorem books_moves {random : PyRandom ρ} (hrandom : random.Shuffles) {w : Midway ρ α}
    (h : Moves random inputs ⟨Simulator.init random cfg, [], []⟩ w) :
    Staffed w.sim ∧ Balanced w.sim w.due := by
  induction h with
  | refl => exact ⟨.init random cfg, .init random cfg⟩
  | tail _ hmove ih => exact books_move hrandom ih.1 ih.2 hmove

namespace Simulator

/-- The simulator's network neither loses, repeats nor invents a message: whatever was sent from
one node to another has been delivered once or is still in the queue, its counters agree with the
history, and its faults leave at least two nodes alive. -/
theorem messages_are_accounted_for [PyNone α] {random : PyRandom ρ} {inputs : Inputs}
    {handler : String → Task α → HandlerOutcome α} {cfg : SimConfig} {calls : List (SimCall α)}
    {s : Simulator ρ α} (hrandom : random.Shuffles)
    (h : driven random inputs handler cfg calls = some s) :
    (∀ src dst type, s.history.count (.send src dst type) =
      s.history.count (.deliver src dst type) + s.network.queue.countP (·.Is src dst type)) ∧
    s.network.delivered = s.history.countP SimEvent.isDeliver ∧
    s.network.dropped = s.history.countP SimEvent.isDrop ∧
    (∀ item ∈ s.network.queue, ∃ i < s.built, item.dst = (s.nodes i).address) ∧
    min 2 s.built ≤ s.live.length := by
  obtain ⟨given, hmoves⟩ := moves_driven random inputs handler h
  obtain ⟨hstaffed, hbalanced⟩ := books_moves hrandom hmoves
  refine ⟨fun src dst type => ?_, hbalanced.delivered, hbalanced.dropped, fun item hitem => ?_,
    hstaffed.alive⟩
  · have hsent := hbalanced.sent src dst type
    rw [List.append_nil] at hsent
    exact hsent
  · have hdst := hbalanced.routed item (List.mem_append_left _ hitem)
    rw [hstaffed.transports] at hdst
    obtain ⟨i, hrange, haddress⟩ := List.mem_map.1 hdst
    exact ⟨i, List.mem_range.1 hrange, haddress.symm.trans (hstaffed.address i).symm⟩

theorem firstDraws_shuffles : firstDraws.Shuffles := by
  intro n r
  simp only [firstDraws]
  split
  · rename_i hn
    subst hn
    decide
  · exact .refl _

/-- After a step of two nodes the gossip has been delivered, and an acknowledgement is on its
way. -/
theorem messages_are_accounted_for_of_twoWrites : ∃ s : Simulator ℕ (Option ℕ),
    writesAt [1, 2] 'a' = some s ∧ s.history.count (.deliver "n1" "sim-0" "gossip") = 1 ∧
    s.network.queue.countP (·.Is "n1" "sim-0" "ack") = 1 ∧ 2 ≤ s.live.length := by
  have hrun : (writesAt [1, 2] 'a').map (fun s => (s.built,
      s.history.count (.deliver "n1" "sim-0" "gossip"),
      s.history.count (.send "n1" "sim-0" "ack"),
      s.history.count (.deliver "n1" "sim-0" "ack"))) = some (2, 1, 1, 0) := by decide +kernel
  obtain ⟨s, hs, he⟩ := Option.map_eq_some_iff.1 hrun
  simp only [Prod.mk.injEq] at he
  obtain ⟨hbuilt, hgossip, hsend, hdeliver⟩ := he
  obtain ⟨hsent, _, _, _, hlive⟩ := messages_are_accounted_for firstDraws_shuffles hs
  have hack := hsent "n1" "sim-0" "ack"
  rw [hsend, hdeliver, Nat.zero_add] at hack
  rw [hbuilt] at hlive
  exact ⟨s, hs, hgossip, hack.symm, hlive⟩

end Simulator

end Simulation

end Suprime
