import Suprime.GraftProgress

namespace Suprime
set_option autoImplicit true

instance [DecidableEq μ] (m : μ) : (t : PtThread ν μ β) → Decidable (t.Offers m)
  | .push _ mid _ _ => inferInstanceAs (Decidable (mid = m))
  | .flush byPeer => inferInstanceAs (Decidable (∃ p ∈ byPeer, m ∈ p.2))
  | .repair _ => inferInstanceAs (Decidable False)
  | .done => inferInstanceAs (Decidable False)

instance [DecidableEq μ] (m : μ) : (body : PtBody μ β) → Decidable (body.Offers m)
  | .gossip mid _ => inferInstanceAs (Decidable (mid = m))
  | .ihave ids => inferInstanceAs (Decidable (m ∈ ids))
  | .prune => inferInstanceAs (Decidable False)
  | .graft _ => inferInstanceAs (Decidable False)

namespace PtSwarm

variable {ν μ β : Type} [DecidableEq ν] [DecidableEq μ]

/-- Nobody will offer or ask for the id any more, and node `a` has not delivered it. -/
structure DeadEnd (a : ν) (m : μ) (s : PtSwarm ν μ β) : Prop where
  queue : ∀ n, ∀ p ∈ (s.node n).lazyQueue, p.2 ≠ m
  announcers : ∀ n, (s.node n).announcers m = []
  threads : ∀ n, ∀ t ∈ s.threads n, ¬ t.Offers m
  inFlight : ∀ msg ∈ s.inFlight, ¬ msg.body.Offers m ∧ ¬ msg.body.Grafts m
  delivered : ∀ p ∈ (s.node a).delivered, p.1 ≠ m

section
omit [DecidableEq ν]

theorem DeadEnd.not_queues {s : PtSwarm ν μ β} (h : DeadEnd a m s) (n : ν) :
    ¬ (s.node n).Queues m := by
  intro ⟨p, hp⟩
  exact h.queue n _ hp rfl

end

theorem DeadEnd.not_passes {s : PtSwarm ν μ β} (h : DeadEnd a m s) (hm : Moves s act n o i t)
    (hact : act.Continues) : ¬ (s.node n).Passes m i := by
  intro hp
  rcases hm.passes hp with ⟨payload, rfl⟩ | ⟨u, hu, hoff⟩ | ⟨msg, hmsg, hoff⟩
  · cases hm with
    | broadcast => cases hact
  · exact h.threads n u hu hoff
  · exact (h.inFlight msg hmsg).1 hoff

theorem DeadEnd.ran {s : PtSwarm ν μ β} (h : DeadEnd a m s) (hm : Moves s act n o i t)
    (hact : act.Continues) (hr : (s.node n).part o i = some r) : DeadEnd a m (t.ran n r) := by
  have heff := Plumtree.partEffect hr m
  have hpass := h.not_passes hm hact
  have hqueue := h.not_queues n
  obtain ⟨hfl, hth, hnode⟩ := hm.sub
  constructor
  · intro k p hp he
    rw [ran_node, hnode] at hp
    by_cases hk : k = n
    · subst hk
      rw [Function.update_self] at hp
      exact (heff.queue ⟨p.1, he ▸ hp⟩).elim hqueue hpass
    · rw [Function.update_of_ne hk] at hp
      exact h.queue k p hp he
  · intro k
    rw [ran_node, hnode]
    by_cases hk : k = n
    · subst hk
      rw [Function.update_self]
      apply List.eq_nil_iff_forall_not_mem.2
      intro p hp
      rcases heff.announcers p hp with hp | ⟨ids, rfl, hmem⟩
      · rw [h.announcers k] at hp
        cases hp
      · exact (h.inFlight _ hm.message).1 hmem
    · rw [Function.update_of_ne hk]
      exact h.announcers k
  · intro k u hu hoff
    rcases mem_threads_ran hu with hu | ⟨q, hq, rfl⟩
    · exact h.threads k u (hth k u hu) hoff
    · exact (heff.thread q hq hoff).elim hqueue hpass
  · intro msg hmsg
    rcases mem_inFlight_ran.1 hmsg with hmsg | ⟨q, hq, rfl⟩
    · exact h.inFlight msg (hfl msg hmsg)
    · constructor
      · intro hoff
        rcases heff.body q hq hoff with hq | hp | ⟨⟨src, rfl⟩, _⟩
        · exact hqueue hq
        · exact hpass hp
        · exact (h.inFlight _ hm.message).2 rfl
      · intro hgraft
        have hbody : q.2.1 = .graft m := by
          obtain ⟨peer, body, th⟩ := q
          cases body with
          | graft mid =>
            cases hgraft
            rfl
          | gossip mid payload => cases hgraft
          | ihave ids => cases hgraft
          | prune => cases hgraft
        have hcons := heff.graft q hq hbody
        rw [h.announcers n] at hcons
        cases hcons
  · intro p hp he
    rw [ran_node, hnode] at hp
    by_cases hk : a = n
    · subst hk
      rw [Function.update_self] at hp
      rcases heff.delivered p.2 (he ▸ hp) with hp | hp
      · exact h.delivered _ hp rfl
      · exact hpass hp
    · rw [Function.update_of_ne hk] at hp
      exact h.delivered p hp he

theorem DeadEnd.run {s : PtSwarm ν μ β} (h : DeadEnd a m s) (hrun : Run step s past s')
    (hC : ∀ p ∈ past, p.2.Continues) : DeadEnd a m s' := by
  apply hrun.invariant (C := fun _ act => act.Continues) hC h
  intro s act s' hs hact hstep
  rcases step_cases hstep with ⟨n, o, i, t, r, hm, hr, rfl⟩ | ⟨j, rfl, _⟩ | ⟨n, rfl, _⟩ |
    ⟨n, l, rfl, _⟩
  · exact hs.ran hm hact hr
  · cases hact
  · cases hact
  · cases hact

/-- The only graft of the id is lost: its announcer is off the list, and the id is lost for good. -/
theorem lost_graft_strands : ¬ ∀ (neighbors : Fin 3 → List (Fin 3))
    (graftTimeout cacheCap : Fin 3 → ℕ)
    (past : List (PtSwarm (Fin 3) ℕ Unit × PtAction (Fin 3) ℕ Unit)) (s : PtSwarm (Fin 3) ℕ Unit)
    (a b : Fin 3) (m : ℕ), Run step (init neighbors graftTimeout cacheCap) past s →
    a ∉ s.crashed → b ∉ s.crashed → b ∈ (s.node a).neighbors →
    (s.node a).missing.get m ≠ none → (b, a, m) ∈ s.announced →
    (s.node b).received.get m ≠ none →
    ∃ past' s' payload, Run step s past' s' ∧ (∀ p ∈ past', p.2.Continues) ∧
      (m, payload) ∈ (s'.node a).delivered := by
  intro hclaim
  obtain ⟨past, s, hr, hs⟩ := exists_run_of_exec step triangle
    (announcement ++ [.tick 0, .tick 0, .lose 0])
    (fun s => decide ((0 ∉ s.crashed ∧ 2 ∉ s.crashed ∧ 2 ∈ (s.node 0).neighbors ∧
      (s.node 0).missing.get 20 = some 0 ∧ (2, 0, 20) ∈ s.announced ∧
      (s.node 2).received.get 20 = some ()) ∧
      (∀ n, ∀ p ∈ (s.node n).lazyQueue, p.2 ≠ 20) ∧ (∀ n, (s.node n).announcers 20 = []) ∧
      (∀ n, ∀ t ∈ s.threads n, ¬ t.Offers 20) ∧
      (∀ msg ∈ s.inFlight, ¬ msg.body.Offers 20 ∧ ¬ msg.body.Grafts 20) ∧
      ∀ p ∈ (s.node 0).delivered, p.1 ≠ 20)) true (by decide)
  obtain ⟨⟨ha, hb, hnb, hmiss, hann, hcached⟩, hqueue, hnone, hth, hfl, hdel⟩ :=
    of_decide_eq_true hs
  have hdead : DeadEnd 0 20 s := ⟨hqueue, hnone, hth, hfl, hdel⟩
  obtain ⟨past', s', payload, hr', hC', hmem⟩ := hclaim _ _ _ past s 0 2 20 hr ha hb hnb
    (by rw [hmiss]; exact Option.some_ne_none _) hann (by rw [hcached]; exact Option.some_ne_none _)
  exact (hdead.run hr' hC').delivered _ hmem rfl

end PtSwarm

end Suprime
