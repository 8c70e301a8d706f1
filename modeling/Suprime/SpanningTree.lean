import Suprime.PlumtreeFlood

namespace Suprime
set_option autoImplicit true

/-- A delivery or a return of a send: what a network without ticks goes on with by itself. -/
def PtAction.Drains : PtAction ν μ β → Prop
  | .deliver _ _ => True
  | .resume _ _ _ => True
  | _ => False

def PtAction.starts : PtAction ν μ β → List (μ × β)
  | .broadcast _ mid payload _ => [(mid, payload)]
  | _ => []

namespace PtSwarm

variable {ν μ β : Type} [DecidableEq ν] [DecidableEq μ]

/-- All neighbours of all nodes are eager. -/
def joined (neighbors : ν → List ν) (graftTimeout cacheCap : ν → ℕ) : PtSwarm ν μ β :=
  { init neighbors graftTimeout cacheCap with
    node := fun n => (Plumtree.init (neighbors n) (graftTimeout n) (cacheCap n)).syncNeighbors }

/-- No flood is going on: only announcements are in flight and no push is suspended. -/
def Settled (s : PtSwarm ν μ β) : Prop :=
  (∀ msg ∈ s.inFlight, msg.body.isIhave) ∧ ∀ n, ∀ t ∈ s.threads n, ¬t.isPush

/-- Nothing is lost, no node crashes or changes its neighbours, and broadcasts and ticks wait until
the swarm has settled. -/
def Orderly (s : PtSwarm ν μ β) : PtAction ν μ β → Prop
  | .broadcast _ _ _ _ => Settled s
  | .deliver _ _ => True
  | .resume _ _ _ => True
  | .tick _ => Settled s
  | _ => False

/-- No announcement comes to a node that has delivered its id and forgotten it, and no second copy
of a payload to a node that can cache nothing. -/
def Remembers (s : PtSwarm ν μ β) : PtAction ν μ β → Prop
  | .deliver i _ => ∀ msg ∈ s.inFlight[i]?, s.Recalls msg
  | _ => True

def broadcasts : List (PtSwarm ν μ β × PtAction ν μ β) → List (μ × β)
  | [] => []
  | p :: past => broadcasts past ++ p.2.starts

/-- No flood is going on, all nodes have got the same broadcasts, and `T` is what is eager. -/
structure Resting (H T : SimpleGraph ν) (cap : ν → ℕ) (bs : List (μ × β)) (s : PtSwarm ν μ β) :
    Prop where
  le : T ≤ H
  crashed : s.crashed = []
  used : s.used = bs.map Prod.fst
  nodup : s.used.Nodup
  nodes : ∀ n, (s.node n).Keeps H n (T.Adj n) bs (cap n)
  fits : ∀ n, ∀ t ∈ s.threads n, t.Fits bs none
  bodies : ∀ msg ∈ s.inFlight, msg.body.Fits bs none

section Resting

variable {H E T : SimpleGraph ν} {cap : ν → ℕ} {root : ν} {bs : List (μ × β)} {q : μ × β}
  {f : Flood ν} {s s' : PtSwarm ν μ β}

section
omit [DecidableEq ν] [DecidableEq μ]

theorem Flooding.over (h : Flooding H E cap root bs q f s) (hs : Settled s) : f.Over := by
  have hcopies : ∀ e, ¬f.UnderWay e := by
    intro e he
    obtain ⟨msg, hmsg, hcopy⟩ := List.mem_filterMap.1 ((h.copies.2 e).2 he)
    have hihave := hs.1 msg hmsg
    obtain ⟨a, b, body⟩ := msg
    cases body with
    | gossip mid payload => cases hihave
    | ihave ids => cases hcopy
    | prune => cases hihave
    | graft mid => cases hihave
  intro a b
  refine ⟨fun hw => ?_, fun hf => hcopies (a, b, _) ⟨hf, .inl rfl⟩,
    fun hf => hcopies (a, b, _) ⟨hf, .inr rfl⟩⟩
  obtain ⟨t, ht, hb⟩ := List.mem_flatMap.1 (((h.pending a).2 b).2 hw)
  have hpush := hs.2 a t ht
  cases t with
  | push peers mid payload sender => exact hpush rfl
  | flush byPeer => cases hb
  | repair mids => cases hb
  | done => cases hb

theorem Flooding.resting (h : Flooding H E cap root bs q f s) (hE : E.Connected)
    (hs : Settled s) : Resting H f.tree cap (bs ++ [q]) s := by
  have ho := h.over hs
  constructor
  · exact h.ok.tree_le.trans h.le
  · exact h.crashed
  · exact h.used
  · exact h.nodup
  · intro n
    have hn := h.nodes n
    rw [held_of_has (h.ok.has_all hE ho n)] at hn
    exact hn.congr (fun a => (h.ok.live_iff hE ho).symm)
  · intro n t ht
    have hfit := (h.fits n t ht).1
    cases t with
    | push peers mid payload sender => exact absurd rfl (hs.2 n _ ht)
    | flush byPeer =>
      intro e he m hm
      rw [List.map_append]
      exact List.mem_append_left _ (hfit e he m hm)
    | repair mids => exact hfit
    | done => trivial
  · intro msg hmsg
    have hfit := h.bodies msg hmsg
    have hihave := hs.1 msg hmsg
    obtain ⟨a, b, body⟩ := msg
    cases body with
    | gossip mid payload => cases hihave
    | ihave ids =>
      intro m hm
      rw [List.map_append]
      exact List.mem_append_left _ (hfit m hm)
    | prune => cases hihave
    | graft mid => cases hihave

end

section
omit [DecidableEq μ]

/-- A part of a handler that keeps its node and sends nothing of a flood keeps the swarm at rest. -/
theorem Resting.ran (h : Resting H T cap bs s) (hm : Moves s a n o i t) (hused : t.used = s.used)
    (hr : r.node.Keeps H n (T.Adj n) bs (cap n))
    (hout : ∀ q ∈ r.out, q.2.1.Fits bs none ∧ q.2.2.Fits bs none) :
    Resting H T cap bs (t.ran n r) ∧ gossips (t.ran n r).sent = gossips s.sent := by
  obtain ⟨hfl, hth, hnode⟩ := hm.sub
  obtain ⟨hused', _, hcr⟩ := ran_history t n r
  have hcrashed : t.crashed = s.crashed ∧ t.sent = s.sent := by
    cases hm with
    | broadcast => exact ⟨rfl, rfl⟩
    | deliver => exact ⟨rfl, rfl⟩
    | resume => exact ⟨rfl, rfl⟩
    | tick => exact ⟨rfl, rfl⟩
  constructor
  · constructor
    · exact h.le
    · rw [hcr, hcrashed.1, h.crashed]
    · rw [hused', hused, h.used]
    · rw [hused', hused]
      exact h.nodup
    · intro k
      rw [ran_node, hnode]
      by_cases hk : k = n
      · subst hk
        rw [Function.update_self]
        exact hr
      · rw [Function.update_of_ne hk]
        exact h.nodes k
    · intro k u hu
      rcases mem_threads_ran hu with hu | ⟨e, he, rfl⟩
      · exact h.fits k u (hth k u hu)
      · exact (hout e he).2
    · intro msg hmsg
      rcases mem_inFlight_ran.1 hmsg with hmsg | ⟨e, he, rfl⟩
      · exact h.bodies msg (hfl msg hmsg)
      · exact (hout e he).1
  · rw [ran_sent, hcrashed.2, gossips, List.countP_append]
    cases hq : r.out with
    | none => rfl
    | some e =>
      have hfit := (hout e hq).1
      obtain ⟨peer, body, thread⟩ := e
      cases body with
      | gossip mid payload => cases hfit
      | ihave ids => rfl
      | prune => exact absurd rfl hfit
      | graft mid => cases hfit

end

theorem Resting.flushOn {x : Plumtree ν μ β} (hx : x.Keeps H n (T.Adj n) bs c)
    (hl : (PtThread.flush l : PtThread ν μ β).Fits bs none) :
    (x.flushOn l).node = x ∧
      ∀ q ∈ (x.flushOn l).out, q.2.1.Fits bs none ∧ q.2.2.Fits bs none := by
  cases l with
  | nil =>
    rw [hx.flushOn_nil]
    exact ⟨rfl, fun q hq => by cases hq⟩
  | cons p rest =>
    refine ⟨rfl, ?_⟩
    intro q hq
    cases hq
    exact ⟨hl p List.mem_cons_self, fun e he => hl e (List.mem_cons_of_mem _ he)⟩

theorem Resting.part (h : Resting H T cap bs s) (hm : Moves s a n o i t) (hrem : Remembers s a)
    (hr : (s.node n).part o i = some r) (hi : ∀ mid payload, i ≠ .broadcast mid payload) :
    Resting H T cap bs (t.ran n r) ∧ gossips (t.ran n r).sent = gossips s.sent := by
  have hn := h.nodes n
  have hmove := hm
  cases hm with
  | broadcast => exact absurd rfl (hi _ _)
  | @deliver i msg o hmsg =>
    have hfit := h.bodies msg (List.mem_of_getElem? hmsg)
    obtain ⟨src, dst, body⟩ := msg
    cases body with
    | gossip mid payload => cases hfit
    | ihave ids =>
      cases hr
      refine h.ran hmove rfl ?_ (fun q hq => by cases hq)
      dsimp only at hn ⊢
      rw [Plumtree.onIhave_of_received src]
      · exact hn
      · intro m hm
        apply hrem _ hmsg m hm
        dsimp only
        rw [hn.delivered]
        exact hfit m hm
    | prune => exact absurd rfl hfit
    | graft mid => cases hfit
  | @resume n j u o _ hu =>
    have hfit := h.fits n u (List.mem_of_getElem? hu)
    cases u with
    | push peers mid payload sender => cases hfit
    | flush byPeer =>
      cases hr
      obtain ⟨hnode, hout⟩ := Resting.flushOn hn hfit
      refine h.ran hmove rfl ?_ hout
      rw [hnode]
      exact hn
    | repair mids => cases hfit
    | done =>
      cases hr
      exact h.ran hmove rfl hn (fun q hq => by cases hq)
  | tick =>
    cases hr
    obtain ⟨y, l, hy, htick, hl⟩ := hn.tick
    obtain ⟨hnode, hout⟩ := Resting.flushOn hy hl
    rw [htick]
    refine h.ran hmove rfl ?_ hout
    rw [hnode]
    exact hy

theorem Resting.load_lt [Fintype ν] (h : Resting H T cap bs s) (hm : Moves s a n o i t)
    (hr : (s.node n).part o i = some r) (ha : a.Drains) : (t.ran n r).load < s.load := by
  cases hm with
  | broadcast => cases ha
  | @deliver i msg o hmsg =>
    have hfit := h.bodies msg (List.mem_of_getElem? hmsg)
    obtain ⟨src, dst, body⟩ := msg
    cases body with
    | gossip mid payload => cases hfit
    | ihave ids =>
      cases hr
      exact Nat.lt_of_succ_le (load_taken hmsg _ dst ((s.node dst).onIhave src ids)).le
    | prune => exact absurd rfl hfit
    | graft mid => cases hfit
  | @resume n j u o _ hu =>
    have hload := load_update (ran_taking s n j r)
    rw [ran_inFlight, threadsLoad_taking hu] at hload
    have hfit := h.fits n u (List.mem_of_getElem? hu)
    cases u with
    | push peers mid payload sender => cases hfit
    | flush byPeer =>
      cases byPeer with
      | nil =>
        change some ((s.node n).flushOn []) = _ at hr
        rw [(h.nodes n).flushOn_nil] at hr
        cases hr
        change _ + (1 + _) + _ = _ + threadsLoad ((s.threads n).eraseIdx j ++ []) +
          messagesLoad (s.inFlight ++ []) at hload
        rw [List.append_nil, List.append_nil] at hload
        change ((s.taking n j).ran n _).load < s.load
        omega
      | cons p rest =>
        cases hr
        change _ = _ + threadsLoad ((s.threads n).eraseIdx j ++ [PtThread.flush rest]) +
          messagesLoad (s.inFlight ++ [_]) at hload
        rw [threadsLoad_concat, messagesLoad_concat] at hload
        change _ + (2 * (rest.length + 1) + 1 + _) + _ = _ + (_ + (2 * rest.length + 1)) + (_ + 1)
          at hload
        change ((s.taking n j).ran n _).load < s.load
        omega
    | repair mids => cases hfit
    | done =>
      cases hr
      change _ + (1 + _) + _ = _ + threadsLoad ((s.threads n).eraseIdx j ++ []) +
        messagesLoad (s.inFlight ++ []) at hload
      rw [List.append_nil, List.append_nil] at hload
      change ((s.taking n j).ran n _).load < s.load
      omega
  | tick => cases ha

section
omit [DecidableEq ν] [DecidableEq μ]

theorem fits_mono {t : PtThread ν μ β} (h : t.Fits bs none) :
    t.Fits bs (some q) ∧ ¬t.isPush ∧ t.pushes = [] := by
  cases t with
  | push peers mid payload sender => cases h
  | flush byPeer => exact ⟨h, Bool.noConfusion, rfl⟩
  | repair mids => cases h
  | done => exact ⟨trivial, Bool.noConfusion, rfl⟩

theorem body_fits_mono {msg : PtMessage ν μ β} (h : msg.body.Fits bs none) :
    msg.body.Fits bs (some q) ∧ msg.copy = none := by
  obtain ⟨a, b, body⟩ := msg
  cases body with
  | gossip mid payload => cases h
  | ihave ids => exact ⟨h, rfl⟩
  | prune => exact absurd rfl h
  | graft mid => cases h

end

theorem Resting.broadcast [Fintype ν] (h : Resting H T cap bs s) (hmid : mid ∉ s.used)
    (hr : (s.node n).broadcast mid payload o = some r) :
    ∃ f, Flooding H T cap n bs (mid, payload) f
        (({ s with used := s.used ++ [mid] } : PtSwarm ν μ β).ran n r) ∧
      gossips (({ s with used := s.used ++ [mid] } : PtSwarm ν μ β).ran n r).sent =
        gossips s.sent + f.sends := by
  obtain ⟨order, ho, hpush⟩ := Plumtree.broadcast_spec hr
  have hm : mid ∉ bs.map Prod.fst := by
    rw [← h.used]
    exact hmid
  have hstarted := (h.nodes n).started hm payload
  let peers := order.filter (fun peer => some peer ≠ none)
  let t : PtSwarm ν μ β := { s with
    used := s.used ++ [mid]
    node := Function.update s.node n ((s.node n).started mid payload) }
  have hhas : ∀ {k}, (Flood.start T Flood.quiet n none).Has n k ↔ k = n := Flood.has_start T n
  have hpeers : ∀ y, y ∈ peers ↔ T.Adj n y := by
    intro y
    rw [List.mem_filter, Plumtree.mem_of_listing ho, hstarted.eager, decide_eq_true_iff]
    exact and_iff_left (Option.some_ne_none y)
  have hnopush : ∀ k, (s.threads k).flatMap PtThread.pushes = [] := fun k =>
    List.flatMap_eq_nil_iff.2 (fun u hu => (fits_mono (q := (mid, payload)) (h.fits k u hu)).2.2)
  have hstart : Flooding H T cap n bs (mid, payload) (Flood.start T Flood.quiet n none)
      (t.suspend n (.push peers mid payload none)) := by
    constructor
    · exact Flood.ok_start T n
    · exact h.le
    · exact h.crashed
    · change s.used ++ [mid] = _
      rw [h.used, List.map_append]
      rfl
    · exact h.nodup.append (List.nodup_singleton mid) (List.disjoint_singleton.2 hmid)
    · intro k
      by_cases hk : k = n
      · subst hk
        change (Function.update s.node k _ k).Keeps _ _ _ _ _
        rw [Function.update_self, held_of_has (hhas.2 rfl)]
        exact hstarted.congr (fun a => and_iff_left (Flood.live_start T k k a))
      · change (Function.update s.node n _ k).Keeps _ _ _ _ _
        rw [Function.update_of_ne hk, held_of_not (fun he => hk (hhas.1 he))]
        exact (h.nodes k).congr (fun a => and_iff_left (Flood.live_start T n k a))
    · intro k u hu
      by_cases hk : k = n
      · subst hk
        rw [suspend_threads] at hu
        rcases List.mem_append.1 hu with hu | hu
        · obtain ⟨hfit, hp, _⟩ := fits_mono (q := (mid, payload)) (h.fits k u hu)
          exact ⟨hfit, fun hpush => absurd hpush hp⟩
        · cases List.mem_singleton.1 hu
          exact ⟨rfl, fun _ => hhas.2 rfl⟩
      · change u ∈ Function.update s.threads n _ k at hu
        rw [Function.update_of_ne hk] at hu
        obtain ⟨hfit, hp, _⟩ := fits_mono (q := (mid, payload)) (h.fits k u hu)
        exact ⟨hfit, fun hpush => absurd hpush hp⟩
    · intro k
      by_cases hk : k = n
      · subst hk
        rw [suspend_threads, flatMap_pushes]
        change Lists ((s.threads k).flatMap _ ++ peers) _
        rw [hnopush]
        refine ⟨(Plumtree.nodup_of_listing ho).filter _, fun y => ?_⟩
        change y ∈ peers ↔ Flood.start T Flood.quiet k none k y = .waiting
        rw [hpeers, Flood.start_eq_waiting, and_iff_right rfl]
      · change Lists ((Function.update s.threads n _ k).flatMap _) _
        rw [Function.update_of_ne hk, hnopush]
        refine ⟨List.nodup_nil, fun y => iff_of_false List.not_mem_nil ?_⟩
        change ¬Flood.start T Flood.quiet n none k y = .waiting
        rw [Flood.start_eq_waiting]
        exact fun he => hk he.1
    · exact fun msg hmsg => (body_fits_mono (h.bodies msg hmsg)).1
    · have hnone : s.inFlight.filterMap PtMessage.copy = [] :=
        List.filterMap_eq_nil_iff.2
          (fun msg hmsg => (body_fits_mono (q := (mid, payload)) (h.bodies msg hmsg)).2)
      change Lists (s.inFlight.filterMap PtMessage.copy) _
      rw [hnone]
      refine ⟨List.nodup_nil, fun e => iff_of_false List.not_mem_nil ?_⟩
      rintro ⟨he, hc | hc⟩
      · exact Flood.start_ne T n e.1 e.2.1 Copy.noConfusion Copy.noConfusion (he.trans hc)
      · exact Flood.start_ne T n e.1 e.2.1 Copy.noConfusion Copy.noConfusion (he.trans hc)
  have hnode : t.node n = (s.node n).started mid payload := Function.update_self _ _ _
  rw [← hnode] at hpush
  obtain ⟨f, hf, hadv⟩ := hstart.push hpush
  have hran : t.ran n r = ({ s with used := s.used ++ [mid] } : PtSwarm ν μ β).ran n r :=
    ran_update_node { s with used := s.used ++ [mid] } n ((s.node n).started mid payload) r
  rw [← hran]
  refine ⟨f, hf, ?_⟩
  have hsends := hadv.sends
  rw [Flood.sends_start] at hsends
  exact hsends

section
omit [DecidableEq ν] [DecidableEq μ]

theorem Orderly.cases (h : Orderly s a) : a.Drains ∧ a.starts = [] ∨ Settled s := by
  cases a with
  | broadcast => exact .inr h
  | deliver => exact .inl ⟨trivial, rfl⟩
  | resume => exact .inl ⟨trivial, rfl⟩
  | tick => exact .inr h
  | lose => cases h
  | crash => cases h
  | setNeighbors => cases h

end

theorem Resting.orderly_step [Fintype ν] (h : Resting H T cap bs s) (ho : Orderly s a)
    (hrem : Remembers s a) (hs : s.step a = some s') :
    a.starts = [] ∧ Resting H T cap bs s' ∧ gossips s'.sent = gossips s.sent ∨
      ∃ root q f, a.starts = [q] ∧ Flooding H T cap root bs q f s' ∧
        gossips s'.sent = gossips s.sent + f.sends := by
  rcases step_cases hs with ⟨n, o, i, t, r, hm, hr, rfl⟩ | ⟨j, rfl, _⟩ | ⟨n, rfl, _⟩ |
    ⟨n, l, rfl, _⟩
  · have hmove := hm
    cases hm with
    | @broadcast n mid payload o _ hmid =>
      obtain ⟨f, hf, hsent⟩ := h.broadcast hmid hr
      exact .inr ⟨n, (mid, payload), f, rfl, hf, hsent⟩
    | deliver => exact .inl ⟨rfl, h.part hmove hrem hr (fun _ _ he => by cases he)⟩
    | resume => exact .inl ⟨rfl, h.part hmove hrem hr (fun _ _ he => by cases he)⟩
    | tick => exact .inl ⟨rfl, h.part hmove hrem hr (fun _ _ he => by cases he)⟩
  · cases ho
  · cases ho
  · cases ho

theorem Flooding.drains_step [Fintype ν] (h : Flooding H E cap root bs q f s) (ha : a.Drains)
    (hrem : Remembers s a) (hs : s.step a = some s') :
    ∃ f', Flooding H E cap root bs q f' s' ∧ Advances f s f' s' := by
  rcases step_cases hs with ⟨n, o, i, t, r, hm, hr, rfl⟩ | ⟨j, rfl, _⟩ | ⟨n, rfl, _⟩ |
    ⟨n, l, rfl, _⟩
  · cases hm with
    | broadcast => cases ha
    | deliver hmsg => exact h.deliver hmsg (hrem _ hmsg) hr _
    | resume _ hu => exact h.resume hu hr
    | tick => cases ha
  · cases ha
  · cases ha
  · cases ha

/-- Up to now the broadcasts of the list have grown a tree, unless there was none, or one of them
floods the graph. -/
def Grown (H : SimpleGraph ν) (cap : ν → ℕ) (bs : List (μ × β)) (s : PtSwarm ν μ β) : Prop :=
  ∃ E : SimpleGraph ν, E.Connected ∧ ((bs = [] ∨ E.IsTree) ∧ Resting H E cap bs s ∨
    ∃ root bs' q f, bs = bs' ++ [q] ∧ Flooding H E cap root bs' q f s)

section
omit [DecidableEq μ]

theorem Grown.settle [Fintype ν] (h : Grown H cap bs s) (hs : Settled s) :
    ∃ E : SimpleGraph ν, E.Connected ∧ (bs = [] ∨ E.IsTree) ∧ Resting H E cap bs s := by
  obtain ⟨E, hE, ⟨htree, hrest⟩ | ⟨root, bs', q, f, rfl, hf⟩⟩ := h
  · exact ⟨E, hE, htree, hrest⟩
  · have ho := hf.over hs
    exact ⟨f.tree, hf.ok.tree_connected hE ho, .inr (hf.ok.tree_isTree hE ho), hf.resting hE hs⟩

end

theorem Grown.step [Fintype ν] (h : Grown H cap bs s) (ho : Orderly s a) (hrem : Remembers s a)
    (hs : s.step a = some s') : Grown H cap (bs ++ a.starts) s' := by
  have hsettled : Settled s → Grown H cap (bs ++ a.starts) s' := by
    intro hset
    obtain ⟨E, hE, htree, hrest⟩ := h.settle hset
    rcases hrest.orderly_step ho hrem hs with ⟨hst, hrest', _⟩ | ⟨root, q, f, hst, hf, _⟩
    · rw [hst, List.append_nil]
      exact ⟨E, hE, .inl ⟨htree, hrest'⟩⟩
    · rw [hst]
      exact ⟨E, hE, .inr ⟨root, bs, q, f, rfl, hf⟩⟩
  rcases ho.cases with ⟨hd, hst⟩ | hset
  · rw [hst, List.append_nil]
    obtain ⟨E, hE, ⟨htree, hrest⟩ | ⟨root, bs', q, f, rfl, hf⟩⟩ := h
    · rcases hrest.orderly_step ho hrem hs with ⟨_, hrest', _⟩ | ⟨root, q, f, hst', _⟩
      · exact ⟨E, hE, .inl ⟨htree, hrest'⟩⟩
      · rw [hst] at hst'
        cases hst'
    · obtain ⟨f', hf', _⟩ := hf.drains_step hd hrem hs
      exact ⟨E, hE, .inr ⟨root, bs', q, f', rfl, hf'⟩⟩
  · exact hsettled hset

/-- Since the swarm rested on the tree `T` with `k` PT_GOSSIP messages sent and `m` broadcasts done,
each further broadcast has sent one message fewer than there are nodes. -/
def Kept [Fintype ν] (H T : SimpleGraph ν) (cap : ν → ℕ) (k m : ℕ) (bs : List (μ × β))
    (s : PtSwarm ν μ β) : Prop :=
  Resting H T cap bs s ∧
      gossips s.sent + (Fintype.card ν - 1) * m = k + (Fintype.card ν - 1) * bs.length ∨
    ∃ root bs' q f, bs = bs' ++ [q] ∧ Flooding H T cap root bs' q f s ∧
      gossips s.sent + (Fintype.card ν - 1) * m =
        k + (Fintype.card ν - 1) * bs'.length + f.sends

section
omit [DecidableEq μ]

theorem Kept.settle [Fintype ν] (h : Kept H T cap k m bs s) (hT : T.IsTree) (hs : Settled s) :
    Resting H T cap bs s ∧
      gossips s.sent + (Fintype.card ν - 1) * m = k + (Fintype.card ν - 1) * bs.length := by
  rcases h with h | ⟨root, bs', q, f, rfl, hf, hsent⟩
  · exact h
  · have ho := hf.over hs
    have hrest := hf.resting hT.connected hs
    rw [hf.ok.tree_eq hT ho] at hrest
    have hsends := hf.ok.sends_tree hT ho
    refine ⟨hrest, ?_⟩
    rw [hsent, List.length_append, List.length_singleton, Nat.mul_add, Nat.mul_one]
    omega

end

theorem Kept.step [Fintype ν] (h : Kept H T cap k m bs s) (hT : T.IsTree) (ho : Orderly s a)
    (hrem : Remembers s a) (hs : s.step a = some s') : Kept H T cap k m (bs ++ a.starts) s' := by
  have hrest : Resting H T cap bs s ∧ gossips s.sent + (Fintype.card ν - 1) * m =
      k + (Fintype.card ν - 1) * bs.length → Kept H T cap k m (bs ++ a.starts) s' := by
    rintro ⟨hrest, hsent⟩
    rcases hrest.orderly_step ho hrem hs with ⟨hst, hrest', hsame⟩ | ⟨root, q, f, hst, hf, hmore⟩
    · rw [hst, List.append_nil]
      exact .inl ⟨hrest', by rw [hsame, hsent]⟩
    · rw [hst]
      exact .inr ⟨root, bs, q, f, rfl, hf, by omega⟩
  rcases ho.cases with ⟨hd, hst⟩ | hset
  · rcases h with h | ⟨root, bs', q, f, rfl, hf, hsent⟩
    · exact hrest h
    · obtain ⟨f', hf', hadv⟩ := hf.drains_step hd hrem hs
      have hsends := hadv.sends
      rw [hst, List.append_nil]
      exact .inr ⟨root, bs', q, f', rfl, hf', by omega⟩
  · exact hrest (h.settle hT hset)

section
omit [DecidableEq μ]

theorem resting_joined (hn : ∀ n a, a ∈ neighbors n ↔ H.Adj n a) (graftTimeout cap : ν → ℕ) :
    Resting H H cap [] (joined neighbors graftTimeout cap : PtSwarm ν μ β) := by
  refine ⟨le_rfl, rfl, rfl, List.nodup_nil, fun n => ?_, ?_, ?_⟩
  · refine ⟨fun ha => ha, @fun a => hn n a, ?_, ?_, rfl, List.drop_nil.symm, rfl, ?_, rfl⟩
    · intro a
      change a ∈ (∅ ∪ ((neighbors n).toFinset \ (∅ ∪ ∅))) ∩ (neighbors n).toFinset ↔ _
      simp [hn]
    · intro a
      change a ∈ ∅ ∩ (neighbors n).toFinset ↔ _
      simp
    · intro q hq
      cases hq
  · intro n t ht
    cases ht
  · intro msg hmsg
    cases hmsg

end

theorem grown_run [Fintype ν] (hH : H.Connected) (hn : ∀ n a, a ∈ neighbors n ↔ H.Adj n a)
    (hr : Run step (joined neighbors graftTimeout cap : PtSwarm ν μ β) past s)
    (hp : ∀ p ∈ past, Orderly p.1 p.2 ∧ Remembers p.1 p.2) : Grown H cap (broadcasts past) s := by
  induction hr with
  | start => exact ⟨H, hH, .inl ⟨.inl rfl, resting_joined hn graftTimeout cap⟩⟩
  | next hr hs ih =>
    obtain ⟨ho, hrem⟩ := hp _ List.mem_cons_self
    exact (ih (fun p hm => hp p (List.mem_cons_of_mem _ hm))).step ho hrem hs

theorem kept_run [Fintype ν] (hT : T.IsTree) (h : Resting H T cap bs s)
    (hr : Run step s past s') (hp : ∀ p ∈ past, Orderly p.1 p.2 ∧ Remembers p.1 p.2) :
    Kept H T cap (gossips s.sent) bs.length (bs ++ broadcasts past) s' := by
  induction hr with
  | start =>
    rw [broadcasts, List.append_nil]
    exact .inl ⟨h, rfl⟩
  | next hr hs ih =>
    obtain ⟨ho, hrem⟩ := hp _ List.mem_cons_self
    rw [broadcasts, ← List.append_assoc]
    exact (ih (fun p hm => hp p (List.mem_cons_of_mem _ hm))).step hT ho hrem hs

theorem exists_handle (x : Plumtree ν μ β) (src : ν) (body : PtBody μ β) :
    ∃ o r, x.handle src o body = some r := by
  cases body with
  | gossip mid payload =>
    by_cases hnone : x.received.get mid = none
    · obtain ⟨o, r, hr, _⟩ := Plumtree.exists_onGossip hnone src payload
      exact ⟨o, r, hr⟩
    · exact ⟨⟨[], []⟩, _, if_neg hnone⟩
  | ihave ids => exact ⟨⟨[], []⟩, _, rfl⟩
  | prune => exact ⟨⟨[], []⟩, _, rfl⟩
  | graft mid => exact ⟨⟨[], []⟩, _, rfl⟩

theorem exists_drains (hcr : s.crashed = []) (hs : ¬Settled s) :
    ∃ a s', a.Drains ∧ s.step a = some s' := by
  have hlive : ∀ n, n ∉ s.crashed := by
    intro n
    rw [hcr]
    exact List.not_mem_nil
  rw [Settled, not_and_or] at hs
  rcases hs with hs | hs
  · obtain ⟨msg, hs⟩ := not_forall.1 hs
    obtain ⟨hmsg, _⟩ := Classical.not_imp.1 hs
    obtain ⟨i, hi⟩ := List.mem_iff_getElem?.1 hmsg
    obtain ⟨o, r, hr⟩ := exists_handle (s.node msg.dst) msg.src msg.body
    exact ⟨.deliver i o, _, trivial, step_of_moves (.deliver hi (hlive _)) hr⟩
  · obtain ⟨n, hs⟩ := not_forall.1 hs
    obtain ⟨t, hs⟩ := not_forall.1 hs
    obtain ⟨ht, hpush⟩ := Classical.not_imp.1 hs
    obtain ⟨j, hj⟩ := List.mem_iff_getElem?.1 ht
    cases t with
    | push peers mid payload sender =>
      obtain ⟨r, hr⟩ := Plumtree.exists_pushOn (s.node n) peers mid payload sender []
      exact ⟨.resume n j _, _, trivial, step_of_moves (.resume (hlive n) hj) hr⟩
    | flush byPeer => exact absurd Bool.noConfusion hpush
    | repair mids => exact absurd Bool.noConfusion hpush
    | done => exact absurd Bool.noConfusion hpush

theorem Resting.drains_length [Fintype ν] (h : Resting H T cap bs s) (hr : Run step s past s')
    (hp : ∀ p ∈ past, p.2.Drains ∧ Remembers p.1 p.2) :
    Resting H T cap bs s' ∧ past.length + s'.load ≤ s.load := by
  induction hr with
  | start => exact ⟨h, (Nat.zero_add _).le⟩
  | next hr hs ih =>
    obtain ⟨hrest, hle⟩ := ih (fun p hm => hp p (List.mem_cons_of_mem _ hm))
    obtain ⟨hd, hrem⟩ := hp _ List.mem_cons_self
    rcases step_cases hs with ⟨n, o, i, t, r, hm, hpart, rfl⟩ | ⟨j, ha, _⟩ | ⟨n, ha, _⟩ |
      ⟨n, l, ha, _⟩
    · have hlt := hrest.load_lt hm hpart hd
      refine ⟨(hrest.part hm hrem hpart ?_).1, by rw [List.length_cons]; omega⟩
      rintro mid payload rfl
      cases hm with
      | broadcast => exact hd
    · rw [ha] at hd
      cases hd
    · rw [ha] at hd
      cases hd
    · rw [ha] at hd
      cases hd

theorem Flooding.drains_length [Fintype ν] (h : Flooding H E cap root bs q f s)
    (hr : Run step s past s') (hp : ∀ p ∈ past, p.2.Drains ∧ Remembers p.1 p.2) :
    ∃ f', Flooding H E cap root bs q f' s' ∧
      past.length + (2 * f'.work + s'.load) ≤ 2 * f.work + s.load := by
  induction hr with
  | start => exact ⟨f, h, (Nat.zero_add _).le⟩
  | next hr hs ih =>
    obtain ⟨f', hf', hle⟩ := ih (fun p hm => hp p (List.mem_cons_of_mem _ hm))
    obtain ⟨hd, hrem⟩ := hp _ List.mem_cons_self
    obtain ⟨f'', hf'', hadv⟩ := hf'.drains_step hd hrem hs
    have heffort := hadv.effort
    exact ⟨f'', hf'', by rw [List.length_cons]; omega⟩

end Resting

/-- A connected network of nodes whose links are all eager, in which no node is told of an id again
that it has delivered and forgotten: each broadcast settles, and then every node has delivered every
broadcast once, in order, the eager links are a spanning tree and all other links are lazy at both
ends, and every later broadcast uses that tree, with one message for each of its links, and leaves
it as it is. -/
theorem grows_spanning_tree [Fintype ν] (H : SimpleGraph ν) (hH : H.Connected)
    (neighbors : ν → List ν) (hn : ∀ n a, a ∈ neighbors n ↔ H.Adj n a)
    (graftTimeout cacheCap : ν → ℕ) {s : PtSwarm ν μ β}
    (hr : Run step (joined neighbors graftTimeout cacheCap) past s)
    (hp : ∀ p ∈ past, Orderly p.1 p.2 ∧ Remembers p.1 p.2) :
    (¬Settled s → ∃ a s', a.Drains ∧ s.step a = some s') ∧
      (∃ k, ∀ past' s', Run step s past' s' → (∀ p ∈ past', p.2.Drains ∧ Remembers p.1 p.2) →
        past'.length ≤ k) ∧
      (Settled s → s.used ≠ [] →
        ((broadcasts past).map Prod.fst).Nodup ∧ (∀ n, (s.node n).delivered = broadcasts past) ∧
        ∃ T ≤ H, T.IsTree ∧ Nat.card T.edgeSet = Fintype.card ν - 1 ∧
          (∀ n a, (a ∈ (s.node n).eager ↔ T.Adj n a) ∧
            (a ∈ (s.node n).lazy ↔ H.Adj n a ∧ ¬T.Adj n a)) ∧
          ∀ past' s', Run step s past' s' → (∀ p ∈ past', Orderly p.1 p.2 ∧ Remembers p.1 p.2) →
            Settled s' →
            (∀ n, (s'.node n).delivered = (s.node n).delivered ++ broadcasts past') ∧
            gossips s'.sent = gossips s.sent + (Fintype.card ν - 1) * (broadcasts past').length ∧
            ∀ n, (s'.node n).eager = (s.node n).eager ∧ (s'.node n).lazy = (s.node n).lazy) := by
  have hgrown := grown_run hH hn hr hp
  refine ⟨fun hs => ?_, ?_, fun hs hused => ?_⟩
  · obtain ⟨E, hE, ⟨_, hrest⟩ | ⟨root, bs, q, f, _, hf⟩⟩ := hgrown
    · exact exists_drains hrest.crashed hs
    · exact exists_drains hf.crashed hs
  · obtain ⟨E, hE, ⟨_, hrest⟩ | ⟨root, bs, q, f, _, hf⟩⟩ := hgrown
    · refine ⟨s.load, fun past' s' hr' hp' => ?_⟩
      have hle := (hrest.drains_length hr' hp').2
      omega
    · refine ⟨2 * f.work + s.load, fun past' s' hr' hp' => ?_⟩
      obtain ⟨f', _, hle⟩ := hf.drains_length hr' hp'
      omega
  · obtain ⟨T, _, htree, hrest⟩ := hgrown.settle hs
    have hbs : broadcasts past ≠ [] := by
      intro hnil
      rw [hrest.used, hnil] at hused
      exact hused rfl
    have hT : T.IsTree := htree.resolve_left hbs
    have hcard := (SimpleGraph.isTree_iff_connected_and_card.1 hT).2
    rw [Nat.card_eq_fintype_card (α := ν)] at hcard
    refine ⟨hrest.used ▸ hrest.nodup, fun n => (hrest.nodes n).delivered, T, hrest.le, hT,
      by omega, fun n a => ⟨(hrest.nodes n).eager, (hrest.nodes n).lazy⟩, ?_⟩
    intro past' s' hr' hp' hs'
    obtain ⟨hrest', hsent⟩ := (kept_run hT hrest hr' hp').settle hT hs'
    refine ⟨fun n => ?_, ?_, fun n => ⟨Finset.ext (fun a => ?_), Finset.ext (fun a => ?_)⟩⟩
    · rw [(hrest'.nodes n).delivered, (hrest.nodes n).delivered]
    · rw [List.length_append, Nat.mul_add] at hsent
      omega
    · rw [(hrest'.nodes n).eager, (hrest.nodes n).eager]
    · rw [(hrest'.nodes n).lazy, (hrest.nodes n).lazy]

instance [Fintype ν] (s : PtSwarm ν μ β) : Decidable (Settled s) :=
  inferInstanceAs (Decidable (_ ∧ _))

instance [Fintype ν] (s : PtSwarm ν μ β) (a : PtAction ν μ β) : Decidable (Orderly s a) :=
  match a with
  | .broadcast _ _ _ _ => inferInstanceAs (Decidable (Settled s))
  | .deliver _ _ => isTrue trivial
  | .resume _ _ _ => isTrue trivial
  | .tick _ => inferInstanceAs (Decidable (Settled s))
  | .lose _ => isFalse id
  | .crash _ => isFalse id
  | .setNeighbors _ _ => isFalse id

instance (s : PtSwarm ν μ β) : (msg : PtMessage ν μ β) → Decidable (s.Recalls msg)
  | ⟨_, _, .gossip _ _⟩ => inferInstanceAs (Decidable (_ → _))
  | ⟨_, _, .ihave ids⟩ => inferInstanceAs (Decidable (∀ mid ∈ ids, _ → _))
  | ⟨_, _, .prune⟩ => isTrue trivial
  | ⟨_, _, .graft _⟩ => isTrue trivial

instance (s : PtSwarm ν μ β) (a : PtAction ν μ β) : Decidable (Remembers s a) :=
  match a with
  | .deliver i _ => inferInstanceAs (Decidable (∀ msg ∈ s.inFlight[i]?, s.Recalls msg))
  | .broadcast _ _ _ _ => isTrue trivial
  | .resume _ _ _ => isTrue trivial
  | .tick _ => isTrue trivial
  | .lose _ => isTrue trivial
  | .crash _ => isTrue trivial
  | .setNeighbors _ _ => isTrue trivial

/-- Each of three nodes is a neighbour of the other two. -/
def threeNodes (n : Fin 3) : List (Fin 3) := (List.finRange 3).filter (· ≠ n)

/-- A broadcast of the first node, with crossing copies between the two others, up to the returns
of their pushes. -/
def crossing (mid : ℕ) : List (PtAction (Fin 3) ℕ Unit) :=
  [.broadcast 0 mid () ⟨[1, 2], []⟩, .resume 0 0 ⟨[], []⟩, .deliver 0 ⟨[0, 2], []⟩,
    .deliver 0 ⟨[0, 1], []⟩, .deliver 0 ⟨[], []⟩, .deliver 0 ⟨[], []⟩, .deliver 0 ⟨[], []⟩,
    .deliver 0 ⟨[], []⟩, .resume 0 0 ⟨[], []⟩]

/-- The link between the two nodes that did not broadcast is pruned. -/
theorem threeNodes_grow_tree : ∃ past, ∃ s : PtSwarm (Fin 3) ℕ Unit,
    Run step (joined threeNodes (fun _ => 1) (fun _ => 5)) past s ∧ Settled s ∧
      (s.node 1).eager = {0} ∧ (∀ n, (s.node n).delivered = broadcasts past) ∧
      ∃ T : SimpleGraph (Fin 3), T.IsTree ∧ ∀ n a, a ∈ (s.node n).eager ↔ T.Adj n a := by
  obtain ⟨past, s, hr, hp, hs⟩ := exists_run_of_execWhere step
    (fun s a => Orderly s a ∧ Remembers s a)
    (joined threeNodes (fun _ => 1) (fun _ => 5) : PtSwarm (Fin 3) ℕ Unit)
    (crossing 0 ++ [.resume 1 0 ⟨[], [2]⟩, .resume 2 0 ⟨[], [1]⟩])
    (fun s => (decide (Settled s), decide (s.used ≠ []), (s.node 1).eager)) (true, true, {0})
    (by decide)
  obtain ⟨hset, hrest⟩ := Prod.mk.inj hs
  obtain ⟨hused, heager⟩ := Prod.mk.inj hrest
  have htree := (grows_spanning_tree (⊤ : SimpleGraph (Fin 3)) SimpleGraph.connected_top threeNodes
    (by decide) (fun _ => 1) (fun _ => 5) hr hp).2.2 (of_decide_eq_true hset)
    (of_decide_eq_true hused)
  obtain ⟨_, hdel, T, _, hT, _, hlinks, _⟩ := htree
  exact ⟨past, s, hr, of_decide_eq_true hset, heager, hdel, T, hT, fun n a => (hlinks n a).1⟩

/-- Nodes that can cache one id only: after the second broadcast an announcement of the first makes
the third node graft the pruned link, and the third broadcast sends four messages and prunes it.
Nodes that can cache nothing: the third node delivers the copies of both others. -/
theorem forgetting_breaks_tree :
    (∃ past past', ∃ s s' : PtSwarm (Fin 3) ℕ Unit,
      Run step (joined threeNodes (fun _ => 1) (fun _ => 1)) past s ∧ Run step s past' s' ∧
        (∀ p ∈ past, Orderly p.1 p.2) ∧ (∀ p ∈ past', Orderly p.1 p.2) ∧
        Settled s ∧ Settled s' ∧ s.used = [0, 1] ∧ s'.used = [0, 1, 2] ∧
        (s.node 1).eager = {0, 2} ∧ (s'.node 1).eager = {0} ∧
        gossips s'.sent = gossips s.sent + 4) ∧
      ∃ past, ∃ s : PtSwarm (Fin 3) ℕ Unit,
        Run step (joined threeNodes (fun _ => 1) (fun _ => 0)) past s ∧
          (∀ p ∈ past, Orderly p.1 p.2) ∧ s.used = [0] ∧
          (s.node 2).delivered = [(0, ()), (0, ())] := by
  constructor
  · have hexec : (execWhere step Orderly
        (joined threeNodes (fun _ => 1) (fun _ => 1) : PtSwarm (Fin 3) ℕ Unit)
        (crossing 0 ++ [.resume 1 0 ⟨[], [2]⟩, .resume 2 0 ⟨[], [1]⟩,
          .broadcast 0 1 () ⟨[1, 2], []⟩, .resume 0 0 ⟨[], []⟩, .resume 0 0 ⟨[], []⟩,
          .deliver 0 ⟨[0], [2]⟩, .deliver 0 ⟨[0], [1]⟩, .tick 1, .deliver 0 ⟨[], []⟩, .tick 2,
          .deliver 0 ⟨[], []⟩, .resume 2 1 ⟨[], []⟩, .deliver 0 ⟨[], []⟩])).bind
        (fun s => (execWhere step Orderly s
          (crossing 2 ++ [.resume 1 2 ⟨[], [2]⟩, .resume 2 2 ⟨[], [1]⟩])).map
          (fun s' => decide (Settled s ∧ Settled s' ∧ s.used = [0, 1] ∧ s'.used = [0, 1, 2] ∧
            (s.node 1).eager = {0, 2} ∧ (s'.node 1).eager = {0} ∧
            gossips s'.sent = gossips s.sent + 4))) = some true := by
      decide
    obtain ⟨s, hs, hexec⟩ := Option.bind_eq_some_iff.1 hexec
    obtain ⟨s', hs', hcond⟩ := Option.map_eq_some_iff.1 hexec
    obtain ⟨past, hr, hp⟩ := Run.start.execWhere (fun p hp => by cases hp) hs
    obtain ⟨past', hr', hp'⟩ := Run.start.execWhere (fun p hp => by cases hp) hs'
    exact ⟨past, past', s, s', hr, hr', hp, hp', of_decide_eq_true hcond⟩
  · obtain ⟨past, s, hr, hp, hs⟩ := exists_run_of_execWhere step Orderly
      (joined threeNodes (fun _ => 1) (fun _ => 0) : PtSwarm (Fin 3) ℕ Unit)
      [.broadcast 0 0 () ⟨[1, 2], []⟩, .resume 0 0 ⟨[], []⟩, .deliver 0 ⟨[0, 2], []⟩,
        .deliver 0 ⟨[0, 1], []⟩, .deliver 0 ⟨[0, 1], []⟩]
      (fun s => (s.used, (s.node 2).delivered)) ([0], [(0, ()), (0, ())]) (by decide)
    obtain ⟨hused, hdel⟩ := Prod.mk.inj hs
    exact ⟨past, s, hr, hp, hused, hdel⟩

end PtSwarm

end Suprime
