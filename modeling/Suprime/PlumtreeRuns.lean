import Suprime.PlumtreeParts

namespace Suprime
set_option autoImplicit true

namespace PtSwarm

variable {ν μ β : Type} [DecidableEq ν] [DecidableEq μ]

/-- The action makes the node run the part of a handler for the input, starting from the swarm in
which the message or the suspended handler is taken away. -/
inductive Moves (s : PtSwarm ν μ β) :
    PtAction ν μ β → ν → PtOrders ν → PtInput ν μ β → PtSwarm ν μ β → Prop
  | broadcast : n ∉ s.crashed → mid ∉ s.used →
    Moves s (.broadcast n mid payload o) n o (.broadcast mid payload)
      { s with used := s.used ++ [mid] }
  | deliver : s.inFlight[i]? = some msg → msg.dst ∉ s.crashed →
    Moves s (.deliver i o) msg.dst o (.message msg.src msg.body)
      { s with inFlight := s.inFlight.eraseIdx i, announced := s.announced ++ announces msg }
  | resume : n ∉ s.crashed → (s.threads n)[j]? = some t →
    Moves s (.resume n j o) n o (.thread t)
      { s with threads := Function.update s.threads n ((s.threads n).eraseIdx j) }
  | tick : n ∉ s.crashed → Moves s (.tick n) n o .tick s

theorem step_of_moves {s : PtSwarm ν μ β} (h : Moves s a n o i t)
    (hr : (s.node n).part o i = some r) : s.step a = some (t.ran n r) := by
  cases h with
  | broadcast hn hmid =>
    rw [step, if_neg (not_or.2 ⟨hn, hmid⟩)]
    change ((s.node n).broadcast _ _ o).bind _ = _
    rw [show (s.node n).broadcast _ _ o = some r from hr]
    rfl
  | deliver hmsg hn =>
    rw [step, hmsg]
    change (if _ ∈ s.crashed then none else _) = _
    rw [if_neg hn]
    change ((s.node _).handle _ o _).bind _ = _
    rw [show (s.node _).handle _ o _ = some r from hr]
    rfl
  | resume hn ht =>
    rw [step, if_neg hn, ht]
    change ((s.node n).resume o _).bind _ = _
    rw [show (s.node n).resume o _ = some r from hr]
    rfl
  | tick hn =>
    rw [step, if_neg hn]
    cases hr
    rfl

theorem step_cases {s : PtSwarm ν μ β} (h : s.step a = some s') :
    (∃ n o i t r, Moves s a n o i t ∧ (s.node n).part o i = some r ∧ s' = t.ran n r) ∨
    (∃ j, a = .lose j ∧ s' = { s with inFlight := s.inFlight.eraseIdx j }) ∨
    (∃ n, a = .crash n ∧ s' = { s with crashed := n :: s.crashed }) ∨
    ∃ n l, a = .setNeighbors n l ∧
      s' = { s with node := Function.update s.node n { s.node n with neighbors := l } } := by
  cases a with
  | broadcast n mid payload o =>
    simp only [step] at h
    split at h
    · cases h
    · rename_i hn
      obtain ⟨hn, hmid⟩ := not_or.1 hn
      obtain ⟨r, hr, h⟩ := Option.bind_eq_some_iff.1 h
      cases h
      exact .inl ⟨n, o, _, _, r, .broadcast hn hmid, hr, rfl⟩
  | deliver i o =>
    obtain ⟨msg, hmsg, h⟩ := Option.bind_eq_some_iff.1 h
    split at h
    · cases h
    · rename_i hn
      obtain ⟨r, hr, h⟩ := Option.bind_eq_some_iff.1 h
      cases h
      exact .inl ⟨msg.dst, o, _, _, r, .deliver hmsg hn, hr, rfl⟩
  | resume n j o =>
    simp only [step] at h
    split at h
    · cases h
    · rename_i hn
      obtain ⟨t, ht, h⟩ := Option.bind_eq_some_iff.1 h
      obtain ⟨r, hr, h⟩ := Option.bind_eq_some_iff.1 h
      cases h
      exact .inl ⟨n, o, _, _, r, .resume hn ht, hr, rfl⟩
  | tick n =>
    simp only [step] at h
    split at h
    · cases h
    · rename_i hn
      cases h
      exact .inl ⟨n, ⟨[], []⟩, .tick, s, _, .tick hn, rfl, rfl⟩
  | lose j =>
    obtain ⟨msg, _, h⟩ := Option.bind_eq_some_iff.1 h
    cases h
    exact .inr (.inl ⟨j, rfl, rfl⟩)
  | crash n =>
    cases h
    exact .inr (.inr (.inl ⟨n, rfl, rfl⟩))
  | setNeighbors n l =>
    cases h
    exact .inr (.inr (.inr ⟨n, l, rfl, rfl⟩))

section
omit [DecidableEq μ]

theorem ran_node (s : PtSwarm ν μ β) (n : ν) (r : PtResult ν μ β) :
    (s.ran n r).node = Function.update s.node n r.node := by
  unfold ran
  split
  · rfl
  · rfl

theorem ran_history (s : PtSwarm ν μ β) (n : ν) (r : PtResult ν μ β) :
    (s.ran n r).used = s.used ∧ (s.ran n r).announced = s.announced ∧
      (s.ran n r).crashed = s.crashed := by
  unfold ran
  split
  · exact ⟨rfl, rfl, rfl⟩
  · exact ⟨rfl, rfl, rfl⟩

theorem ran_inFlight (s : PtSwarm ν μ β) (n : ν) (r : PtResult ν μ β) :
    (s.ran n r).inFlight = s.inFlight ++ (r.out.map (fun q => ⟨n, q.1, q.2.1⟩)).toList := by
  unfold ran
  split
  · rename_i hout
    rw [hout]
    exact (List.append_nil _).symm
  · rename_i hout
    rw [hout]
    rfl

theorem ran_threads (s : PtSwarm ν μ β) (n : ν) (r : PtResult ν μ β) :
    (s.ran n r).threads =
      Function.update s.threads n (s.threads n ++ (r.out.map (fun q => q.2.2)).toList) := by
  unfold ran
  split
  · rename_i hout
    rw [hout]
    simp
  · rename_i hout
    rw [hout]
    rfl

theorem ran_sent (s : PtSwarm ν μ β) (n : ν) (r : PtResult ν μ β) :
    (s.ran n r).sent = s.sent ++ (r.out.map (fun q => ⟨n, q.1, q.2.1⟩)).toList := by
  unfold ran
  split
  · rename_i hout
    rw [hout]
    exact (List.append_nil _).symm
  · rename_i hout
    rw [hout]
    rfl

theorem mem_inFlight_ran {s : PtSwarm ν μ β} :
    msg ∈ (s.ran n r).inFlight ↔ msg ∈ s.inFlight ∨ ∃ q ∈ r.out, msg = ⟨n, q.1, q.2.1⟩ := by
  rw [ran_inFlight, List.mem_append, Option.mem_toList, Option.map_eq_some_iff]
  simp only [eq_comm, Option.mem_def]

theorem mem_threads_ran {s : PtSwarm ν μ β} (h : t ∈ (s.ran n r).threads k) :
    t ∈ s.threads k ∨ ∃ q ∈ r.out, t = q.2.2 := by
  rw [ran_threads] at h
  by_cases hk : k = n
  · subst hk
    rw [Function.update_self, List.mem_append, Option.mem_toList, Option.map_eq_some_iff] at h
    simpa only [eq_comm, Option.mem_def] using h
  · rw [Function.update_of_ne hk] at h
    exact .inl h

theorem Moves.sub {s : PtSwarm ν μ β} (h : Moves s a n o i t) :
    (∀ msg ∈ t.inFlight, msg ∈ s.inFlight) ∧ (∀ k, ∀ u ∈ t.threads k, u ∈ s.threads k) ∧
      t.node = s.node := by
  cases h with
  | broadcast => exact ⟨fun _ h => h, fun _ _ h => h, rfl⟩
  | deliver => exact ⟨fun _ h => List.mem_of_mem_eraseIdx h, fun _ _ h => h, rfl⟩
  | @resume n j th o _ _ =>
    refine ⟨fun _ h => h, fun k u hu => ?_, rfl⟩
    dsimp only at hu
    by_cases hk : k = n
    · subst hk
      rw [Function.update_self] at hu
      exact List.mem_of_mem_eraseIdx hu
    · rw [Function.update_of_ne hk] at hu
      exact hu
  | tick => exact ⟨fun _ h => h, fun _ _ h => h, rfl⟩

end

theorem Moves.passes {s : PtSwarm ν μ β} (h : Moves s a n o i t)
    (hp : (s.node n).Passes m i) :
    (∃ payload, i = .broadcast m payload) ∨ (∃ u ∈ s.threads n, u.Offers m) ∨
      ∃ msg ∈ s.inFlight, msg.body.Offers m := by
  cases h with
  | @broadcast _ mid payload =>
    cases hp
    exact .inl ⟨payload, rfl⟩
  | @deliver _ msg _ hmsg =>
    refine .inr (.inr ⟨msg, List.mem_of_getElem? hmsg, ?_⟩)
    cases hb : msg.body with
    | gossip mid payload =>
      rw [hb] at hp
      exact hp.1
    | ihave ids =>
      rw [hb] at hp
      cases hp
    | prune =>
      rw [hb] at hp
      cases hp
    | graft mid =>
      rw [hb] at hp
      cases hp
  | resume _ ht => exact .inr (.inl ⟨_, List.mem_of_getElem? ht, hp⟩)
  | tick => cases hp

section
omit [DecidableEq μ]

theorem Moves.message {s : PtSwarm ν μ β} (h : Moves s a n o (.message src body) t) :
    ⟨src, n, body⟩ ∈ s.inFlight := by
  cases h with
  | deliver hmsg => exact List.mem_of_getElem? hmsg

end

/-- Every id that a node, a suspended handler or a message knows of was broadcast, and no node
misses an id that it has. -/
structure Known (s : PtSwarm ν μ β) : Prop where
  queue : ∀ n m, (s.node n).Queues m → m ∈ s.used
  missing : ∀ n m, (s.node n).missing.get m ≠ none → m ∈ s.used
  threads : ∀ n m, ∀ t ∈ s.threads n, t.Offers m → m ∈ s.used
  inFlight : ∀ m, ∀ msg ∈ s.inFlight, msg.body.Offers m → m ∈ s.used
  received : ∀ n m, (s.node n).received.get m ≠ none → m ∈ s.used
  fresh : ∀ n m, (s.node n).missing.get m ≠ none → (s.node n).received.get m = none

section
omit [DecidableEq ν]

theorem known_init (neighbors : ν → List ν) (graftTimeout cacheCap : ν → ℕ) :
    Known (init neighbors graftTimeout cacheCap : PtSwarm ν μ β) := by
  constructor
  · intro n m ⟨p, hp⟩
    cases hp
  · intro n m h
    exact absurd rfl h
  · intro n m t ht
    cases ht
  · intro m msg hmsg
    cases hmsg
  · intro n m h
    exact absurd rfl h
  · intro n m h
    exact absurd rfl h

end

section
omit [DecidableEq μ]

theorem Moves.used {s : PtSwarm ν μ β} (h : Moves s a n o i t) : ∀ m ∈ s.used, m ∈ t.used := by
  cases h with
  | broadcast => exact fun m hm => List.mem_append_left _ hm
  | deliver => exact fun m hm => hm
  | resume => exact fun m hm => hm
  | tick => exact fun m hm => hm

end

theorem Known.passes {s : PtSwarm ν μ β} (hk : Known s) (h : Moves s a n o i t)
    (hp : (s.node n).Passes m i) : m ∈ t.used := by
  rcases h.passes hp with ⟨payload, rfl⟩ | ⟨u, hu, hoff⟩ | ⟨msg, hmsg, hoff⟩
  · cases h with
    | broadcast => exact List.mem_append_right _ List.mem_cons_self
  · exact h.used m (hk.threads n m u hu hoff)
  · exact h.used m (hk.inFlight m msg hmsg hoff)

theorem Known.ran {s : PtSwarm ν μ β} (hk : Known s) (h : Moves s a n o i t)
    (hr : (s.node n).part o i = some r) : Known (t.ran n r) := by
  have heff := fun m => Plumtree.partEffect hr m
  obtain ⟨hfl, hth, hnode⟩ := h.sub
  have hpass := fun m => hk.passes (m := m) h
  have hqueue : ∀ m, (s.node n).Queues m ∨ (s.node n).Passes m i → m ∈ t.used := by
    intro m hq
    rcases hq with hq | hp
    · exact h.used m (hk.queue n m hq)
    · exact hpass m hp
  constructor
  · intro k m hq
    rw [(ran_history t n r).1]
    rw [ran_node, hnode] at hq
    by_cases hkn : k = n
    · subst hkn
      rw [Function.update_self] at hq
      exact hqueue m ((heff m).queue hq)
    · rw [Function.update_of_ne hkn] at hq
      exact h.used m (hk.queue k m hq)
  · intro k m hm
    rw [(ran_history t n r).1]
    rw [ran_node, hnode] at hm
    by_cases hkn : k = n
    · subst hkn
      rw [Function.update_self] at hm
      rcases (heff m).missing hm with hm | ⟨src, ids, rfl, hmem⟩
      · exact h.used m (hk.missing k m hm)
      · exact h.used m (hk.inFlight m _ h.message hmem)
    · rw [Function.update_of_ne hkn] at hm
      exact h.used m (hk.missing k m hm)
  · intro k m u hu hoff
    rw [(ran_history t n r).1]
    rcases mem_threads_ran hu with hu | ⟨q, hq, rfl⟩
    · exact h.used m (hk.threads k m u (hth k u hu) hoff)
    · exact hqueue m ((heff m).thread q hq hoff)
  · intro m msg hmsg hoff
    rw [(ran_history t n r).1]
    rcases mem_inFlight_ran.1 hmsg with hmsg | ⟨q, hq, rfl⟩
    · exact h.used m (hk.inFlight m msg (hfl msg hmsg) hoff)
    · rcases (heff m).body q hq hoff with hq | hp | ⟨_, hrec⟩
      · exact hqueue m (.inl hq)
      · exact hpass m hp
      · exact h.used m (hk.received n m hrec)
  · intro k m hrec
    rw [(ran_history t n r).1]
    rw [ran_node, hnode] at hrec
    by_cases hkn : k = n
    · subst hkn
      rw [Function.update_self] at hrec
      rcases (heff m).received hrec with hrec | hp
      · exact h.used m (hk.received k m hrec)
      · exact hpass m hp
    · rw [Function.update_of_ne hkn] at hrec
      exact h.used m (hk.received k m hrec)
  · intro k m hm
    rw [ran_node, hnode] at hm ⊢
    by_cases hkn : k = n
    · subst hkn
      rw [Function.update_self] at hm ⊢
      apply (heff m).fresh ?_ (hk.fresh k m) hm
      intro payload hi
      subst hi
      cases h with
      | broadcast _ hmid =>
        rcases (heff m).missing hm with hm | ⟨src, ids, hi, _⟩
        · exact hmid (hk.missing _ m hm)
        · cases hi
    · rw [Function.update_of_ne hkn] at hm ⊢
      exact hk.fresh k m hm

section
omit [DecidableEq μ]

theorem update_neighbors (s : PtSwarm ν μ β) (n : ν) (l : List ν) (k : ν) :
    ∃ y, Function.update s.node n { s.node n with neighbors := l } k =
      { s.node k with neighbors := y } := by
  by_cases hkn : k = n
  · subst hkn
    exact ⟨l, Function.update_self _ _ _⟩
  · exact ⟨(s.node k).neighbors, Function.update_of_ne hkn _ _⟩

end

theorem Known.step {s : PtSwarm ν μ β} (hk : Known s) (h : s.step a = some s') : Known s' := by
  rcases step_cases h with ⟨n, o, i, t, r, hmove, hr, rfl⟩ | ⟨j, _, rfl⟩ | ⟨n, _, rfl⟩ |
    ⟨n, l, _, rfl⟩
  · exact hk.ran hmove hr
  · exact ⟨hk.queue, hk.missing, hk.threads,
      fun m msg hmsg => hk.inFlight m msg (List.mem_of_mem_eraseIdx hmsg), hk.received, hk.fresh⟩
  · exact ⟨hk.queue, hk.missing, hk.threads, hk.inFlight, hk.received, hk.fresh⟩
  · have hsame := s.update_neighbors n l
    constructor
    · intro k m hq
      obtain ⟨y, hy⟩ := hsame k
      dsimp only at hq
      rw [hy] at hq
      exact hk.queue k m hq
    · intro k m hm
      obtain ⟨y, hy⟩ := hsame k
      dsimp only at hm
      rw [hy] at hm
      exact hk.missing k m hm
    · exact hk.threads
    · exact hk.inFlight
    · intro k m hm
      obtain ⟨y, hy⟩ := hsame k
      dsimp only at hm
      rw [hy] at hm
      exact hk.received k m hm
    · intro k m hm
      obtain ⟨y, hy⟩ := hsame k
      dsimp only at hm ⊢
      rw [hy] at hm ⊢
      exact hk.fresh k m hm

end PtSwarm

end Suprime
