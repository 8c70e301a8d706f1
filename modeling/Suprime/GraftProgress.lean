import Suprime.GraftRepair

namespace Suprime
set_option autoImplicit true

namespace Plumtree

variable {ν μ β : Type} [DecidableEq ν] [DecidableEq μ]

/-- How many repairs of the id can pass before the peer is grafted. -/
def urgency (x : Plumtree ν μ β) (m : μ) (b : ν) : ℕ :=
  (x.announcers m).idxOf b * (x.graftTimeout + 1) + (x.graftTimeout - (x.missing.get m).getD 0)

/-- The peer is on the list for the id, at the given urgency or nearer. -/
structure Nears (m : μ) (b : ν) (u : ℕ) (x y : Plumtree ν μ β) : Prop where
  received : y.received = x.received
  delivered : y.delivered = x.delivered
  heard : y.HeardFrom m b
  urgency : y.urgency m b ≤ u

theorem Nears.trans {x y z : Plumtree ν μ β} (h : Nears m b u x y) (h' : Nears m b v y z) :
    Nears m b v x z :=
  ⟨h'.received.trans h.received, h'.delivered.trans h.delivered, h'.heard, h'.urgency⟩

theorem Nears.mono {x y : Plumtree ν μ β} (h : Nears m b u x y) (hu : u ≤ v) : Nears m b v x y :=
  ⟨h.received, h.delivered, h.heard, h.urgency.trans hu⟩

/-- Whatever a repair does not know any more, it does not meet. -/
structure Repairable (x : Plumtree ν μ β) (mids : List μ) : Prop where
  nodup : mids.Nodup
  known : ∀ mid ∈ mids, x.received.get mid ≠ none ∨ x.missing.get mid ≠ none

theorem urgency_congr {x y : Plumtree ν μ β} (ht : y.graftTimeout = x.graftTimeout)
    (ha : y.announcers m = x.announcers m) (hm : y.missing.get m = x.missing.get m) :
    y.urgency m b = x.urgency m b := by
  unfold urgency
  rw [ht, ha, hm]

theorem Nears.other {x y : Plumtree ν μ β} (hx : x.HeardFrom m b) (hrec : y.received = x.received)
    (hdel : y.delivered = x.delivered) (ht : y.graftTimeout = x.graftTimeout)
    (ha : y.announcers m = x.announcers m) (hm : y.missing.get m = x.missing.get m) :
    Nears m b (x.urgency m b) x y := by
  refine ⟨hrec, hdel, ⟨?_, ?_⟩, (urgency_congr ht ha hm).le⟩
  · rw [hm]
    exact hx.1
  · rw [ha]
    exact hx.2

theorem urgency_wait {x : Plumtree ν μ β} (hw : x.missing.get m = some w)
    (hlt : w + 1 < x.graftTimeout) :
    Plumtree.urgency { x with missing := x.missing.set m (w + 1) } m b < x.urgency m b := by
  unfold urgency
  have hann : Plumtree.announcers { x with missing := x.missing.set m (w + 1) } m =
      x.announcers m := rfl
  rw [hann]
  dsimp only
  rw [Dict.get_set_self, hw, Option.getD_some, Option.getD_some]
  omega

theorem urgency_graft {x y : Plumtree ν μ β} (hp : x.announcers m = peer :: y.announcers m)
    (hb : b ≠ peer) (ht : y.graftTimeout = x.graftTimeout) :
    y.urgency m b < x.urgency m b := by
  unfold urgency
  rw [hp, ht, List.idxOf_cons_ne _ (Ne.symm hb), Nat.succ_mul]
  omega

theorem repairOn_cons {x : Plumtree ν μ β} (hx : x.HeardFrom m b)
    (hnone : x.received.get m = none) (mid : μ) (mids : List μ) :
    (∃ y, x.repairOn (mid :: mids) = y.repairOn mids ∧ Nears m b (x.urgency m b) x y ∧
      (mid = m → y.urgency m b < x.urgency m b) ∧
      ∀ k, k ≠ mid → y.missing.get k = x.missing.get k) ∨
    (∃ y peer, x.repairOn (mid :: mids) = ⟨y, some (peer, .graft mid, .repair mids)⟩ ∧
      (peer = b ∧ mid = m ∧ y.received = x.received ∧ y.delivered = x.delivered ∨
        Nears m b (x.urgency m b) x y ∧ (mid = m → y.urgency m b < x.urgency m b)) ∧
      ∀ k, k ≠ mid → y.missing.get k = x.missing.get k) ∨
    (x.repairOn (mid :: mids) = ⟨x, none⟩ ∧ x.missing.get mid = none ∧
      x.received.get mid = none) := by
  have hne : x.received.get mid ≠ none → mid ≠ m := by
    intro hmid he
    rw [he] at hmid
    exact hmid hnone
  rw [repairOn]
  split
  · rename_i hrec
    refine .inl ⟨_, rfl, .other hx rfl rfl rfl rfl ?_, fun he => absurd he (hne hrec), ?_⟩
    · dsimp only
      rw [Dict.get_erase, if_neg (Ne.symm (hne hrec))]
    · intro k hk
      dsimp only
      rw [Dict.get_erase, if_neg hk]
  · rename_i hrec
    split
    · rename_i hmiss
      exact .inr (.inr ⟨rfl, hmiss, not_not.1 hrec⟩)
    · rename_i waited hwait
      have hset : ∀ v k, k ≠ mid → (x.missing.set mid v).get k = x.missing.get k :=
        fun v k hk => Dict.get_set_ne _ _ hk
      have hmiss : ∀ v, (x.missing.set mid v).get m ≠ none := by
        intro v
        rw [Dict.get_set]
        split
        · exact Option.some_ne_none _
        · exact hx.1
      split
      · rename_i peer cs hcs
        split
        · refine .inr (.inl ⟨_, peer, rfl, ?_, hset 0⟩)
          by_cases hm : mid = m
          · subst hm
            by_cases hb : b = peer
            · exact .inl ⟨hb.symm, rfl, rfl, rfl⟩
            · right
              have hself : ((x.ihaveFrom.set mid cs).get mid).getD [] = cs := by
                rw [Dict.get_set_self]
                rfl
              have hpop : x.announcers mid =
                  peer :: ((x.ihaveFrom.set mid cs).get mid).getD [] := by
                rw [hself]
                exact hcs
              have hlt := urgency_graft (x := x)
                (y := { x with
                  ihaveFrom := x.ihaveFrom.set mid cs
                  eager := insert peer x.eager
                  lazy := x.lazy.erase peer
                  missing := x.missing.set mid 0 }) hpop hb rfl
              refine ⟨⟨rfl, rfl, ⟨hmiss 0, ?_⟩, hlt.le⟩, fun _ => hlt⟩
              have hmem := hx.2
              rw [hpop] at hmem
              exact (List.mem_cons.1 hmem).resolve_left hb
          · refine .inr ⟨.other hx rfl rfl rfl ?_ (hset 0 m (Ne.symm hm)), fun he => absurd he hm⟩
            exact congrArg (Option.getD · []) (Dict.get_set_ne _ _ (Ne.symm hm))
        · rename_i hlt
          left
          by_cases hm : mid = m
          · subst hm
            have hu := urgency_wait (b := b) hwait (Nat.lt_of_not_le hlt)
            exact ⟨_, rfl, ⟨rfl, rfl, ⟨hmiss _, hx.2⟩, hu.le⟩, fun _ => hu, hset _⟩
          · exact ⟨_, rfl, .other hx rfl rfl rfl rfl (hset _ m (Ne.symm hm)),
              fun he => absurd he hm, hset _⟩
      · rename_i hcs
        have hm : mid ≠ m := by
          intro he
          subst he
          have hmem : b ∈ (x.ihaveFrom.get mid).getD [] := hx.2
          rw [hcs] at hmem
          cases hmem
        exact .inl ⟨_, rfl, .other hx rfl rfl rfl rfl (hset _ m (Ne.symm hm)),
          fun he => absurd he hm, hset _⟩

section
omit [DecidableEq ν]

theorem Repairable.tail {x y : Plumtree ν μ β} (h : Repairable x (mid :: mids))
    (hrec : y.received = x.received) (hmiss : ∀ k, k ≠ mid → y.missing.get k = x.missing.get k) :
    Repairable y mids := by
  obtain ⟨hmid, hnodup⟩ := List.nodup_cons.1 h.nodup
  refine ⟨hnodup, fun k hk => ?_⟩
  have hne : k ≠ mid := by
    intro he
    rw [he] at hk
    exact hmid hk
  rw [hrec, hmiss k hne]
  exact h.known k (List.mem_cons_of_mem _ hk)

end

theorem repairOn_nears {x : Plumtree ν μ β} (hx : x.HeardFrom m b)
    (hnone : x.received.get m = none) (mids : List μ) :
    (∃ y mids', x.repairOn mids = ⟨y, some (b, .graft m, .repair mids')⟩ ∧
      y.received = x.received ∧ y.delivered = x.delivered) ∨
    (∃ y peer mid mids', x.repairOn mids = ⟨y, some (peer, .graft mid, .repair mids')⟩ ∧
      Nears m b (x.urgency m b) x y ∧ mids'.length < mids.length ∧
      (Repairable x mids → m ∈ mids →
        y.urgency m b < x.urgency m b ∨ m ∈ mids' ∧ Repairable y mids')) ∨
    (∃ y, x.repairOn mids = ⟨y, none⟩ ∧ Nears m b (x.urgency m b) x y ∧
      (Repairable x mids → m ∈ mids → y.urgency m b < x.urgency m b)) := by
  induction mids generalizing x with
  | nil => exact .inr (.inr ⟨x, rfl, .other hx rfl rfl rfl rfl rfl, fun _ hm => by cases hm⟩)
  | cons mid mids ih =>
    rcases repairOn_cons hx hnone mid mids with ⟨y, he, hy, hlt, hmiss⟩ |
      ⟨y, peer, he, hy, hmiss⟩ | ⟨he, hmid, hrec⟩
    · have hyrec := hy.received
      rw [he]
      rcases ih hy.heard (hyrec ▸ hnone) with ⟨z, mids', hz, hzrec, hzdel⟩ |
        ⟨z, peer, k, mids', hz, hnear, hlen, htouch⟩ | ⟨z, hz, hnear, htouch⟩
      · exact .inl ⟨z, mids', hz, hzrec.trans hyrec, hzdel.trans hy.delivered⟩
      · refine .inr (.inl ⟨z, peer, k, mids', hz, (hy.trans hnear).mono hy.urgency,
          Nat.lt_succ_of_lt hlen, fun hok hm => ?_⟩)
        by_cases hmid : mid = m
        · exact .inl (hnear.urgency.trans_lt (hlt hmid))
        · have hm' := (List.mem_cons.1 hm).resolve_left (Ne.symm hmid)
          rcases htouch (hok.tail hyrec hmiss) hm' with hu | hrest
          · exact .inl (hu.trans_le hy.urgency)
          · exact .inr hrest
      · refine .inr (.inr ⟨z, hz, (hy.trans hnear).mono hy.urgency, fun hok hm => ?_⟩)
        by_cases hmid : mid = m
        · exact hnear.urgency.trans_lt (hlt hmid)
        · have hm' := (List.mem_cons.1 hm).resolve_left (Ne.symm hmid)
          exact (htouch (hok.tail hyrec hmiss) hm').trans_le hy.urgency
    · rcases hy with ⟨rfl, rfl, hrec, hdel⟩ | ⟨hnear, hlt⟩
      · exact .inl ⟨y, mids, he, hrec, hdel⟩
      · refine .inr (.inl ⟨y, peer, mid, mids, he, hnear, Nat.lt_succ_self _, fun hok hm => ?_⟩)
        by_cases hmid : mid = m
        · exact .inl (hlt hmid)
        · exact .inr ⟨(List.mem_cons.1 hm).resolve_left (Ne.symm hmid),
            hok.tail hnear.received hmiss⟩
    · refine .inr (.inr ⟨x, he, .other hx rfl rfl rfl rfl rfl, fun hok _ => ?_⟩)
      rcases hok.known mid List.mem_cons_self with h | h
      · exact absurd hrec h
      · exact absurd hmid h

end Plumtree

/-- A step that neither loses a message nor starts a broadcast: a delivery, a return of a send or a
tick. -/
def PtAction.Continues : PtAction ν μ β → Prop
  | .deliver _ _ => True
  | .resume _ _ _ => True
  | .tick _ => True
  | _ => False

namespace PtSwarm

variable {ν μ β : Type} [DecidableEq ν] [DecidableEq μ]

/-- A continuation of deliveries, returns of sends and ticks. -/
def Continues (s s' : PtSwarm ν μ β) : Prop :=
  ∃ past, Run step s past s' ∧ ∀ p ∈ past, p.2.Continues

theorem Continues.refl (s : PtSwarm ν μ β) : Continues s s :=
  ⟨[], .start, fun p hp => by cases hp⟩

theorem Continues.trans {s t u : PtSwarm ν μ β} (h : Continues s t) (h' : Continues t u) :
    Continues s u := by
  obtain ⟨past, hr, hC⟩ := h
  obtain ⟨past', hr', hC'⟩ := h'
  refine ⟨past' ++ past, hr.append hr', fun p hp => ?_⟩
  rcases List.mem_append.1 hp with hp | hp
  · exact hC' p hp
  · exact hC p hp

theorem Continues.single {s : PtSwarm ν μ β} (h : Moves s act n o i t) (hact : act.Continues)
    (hr : (s.node n).part o i = some r) : Continues s (t.ran n r) := by
  refine ⟨[(s, act)], Run.start.next (step_of_moves h hr), fun p hp => ?_⟩
  rw [List.mem_singleton.1 hp]
  exact hact

/-- Node `a` lacks the id, node `b` has it, both are up, and `a` has delivered what it had. -/
structure Pursuit (a b : ν) (m : μ) (d : List (μ × β)) (s : PtSwarm ν μ β) : Prop where
  up : a ∉ s.crashed ∧ b ∉ s.crashed
  lacks : (s.node a).received.get m = none
  has : (s.node b).received.get m ≠ none
  delivered : (s.node a).delivered = d

section
omit [DecidableEq ν]

theorem Pursuit.ne {s : PtSwarm ν μ β} (h : Pursuit a b m d s) : b ≠ a := by
  intro he
  have hhas := h.has
  rw [he] at hhas
  exact hhas h.lacks

end

section
omit [DecidableEq μ]

theorem Moves.crashed {s : PtSwarm ν μ β} (h : Moves s act n o i t) : t.crashed = s.crashed := by
  cases h with
  | broadcast => rfl
  | deliver => rfl
  | resume => rfl
  | tick => rfl

end

theorem Pursuit.ran {s : PtSwarm ν μ β} (h : Pursuit a b m d s) (hm : Moves s act a o i t)
    (hrec : r.node.received = (s.node a).received)
    (hdel : r.node.delivered = (s.node a).delivered) : Pursuit a b m d (t.ran a r) := by
  have hnode : (t.ran a r).node = Function.update s.node a r.node := by
    rw [ran_node, hm.sub.2.2]
  constructor
  · rw [(ran_history t a r).2.2, hm.crashed]
    exact h.up
  · rw [hnode, Function.update_self, hrec]
    exact h.lacks
  · rw [hnode, Function.update_of_ne h.ne]
    exact h.has
  · rw [hnode, Function.update_self, hdel]
    exact h.delivered

theorem Pursuit.answered {s : PtSwarm ν μ β} (h : Pursuit a b m d s)
    (hm : Moves s act b o (.message a (.graft m)) t) :
    Pursuit a b m d (t.ran b ((s.node b).onGraft a m)) := by
  have hnode : (t.ran b ((s.node b).onGraft a m)).node =
      Function.update s.node b ((s.node b).onGraft a m).node := by
    rw [ran_node, hm.sub.2.2]
  constructor
  · rw [(ran_history t b _).2.2, hm.crashed]
    exact h.up
  · rw [hnode, Function.update_of_ne h.ne.symm]
    exact h.lacks
  · rw [hnode, Function.update_self]
    exact h.has
  · rw [hnode, Function.update_of_ne h.ne.symm]
    exact h.delivered

/-- A graft or an answer is under way. -/
def Mended (a b : ν) (m : μ) (s : PtSwarm ν μ β) : Prop := ∃ msg ∈ s.inFlight, Mends a b m msg

theorem delivers_of_gossip {s : PtSwarm ν μ β} (h : Pursuit a b m d s)
    (hmsg : ⟨b, a, .gossip m payload⟩ ∈ s.inFlight) :
    ∃ s', Continues s s' ∧ (s'.node a).delivered = d ++ [(m, payload)] := by
  obtain ⟨i, hi⟩ := List.mem_iff_getElem?.1 hmsg
  obtain ⟨o, r, hr, hdel⟩ := Plumtree.exists_onGossip h.lacks b payload
  have hmove : Moves s (.deliver i o) a o (.message b (.gossip m payload)) _ :=
    .deliver hi h.up.1
  refine ⟨_, .single hmove trivial hr, ?_⟩
  rw [ran_node, Function.update_self, hdel, h.delivered]

theorem delivers_of_mended {s : PtSwarm ν μ β} (h : Pursuit a b m d s) (hm : Mended a b m s) :
    ∃ s' payload, Continues s s' ∧ (s'.node a).delivered = d ++ [(m, payload)] := by
  obtain ⟨⟨src, dst, body⟩, hmsg, hmends⟩ := hm
  rcases hmends with ⟨rfl, rfl, hbody⟩ | ⟨rfl, rfl, hbody⟩
  · cases body with
    | graft mid =>
      cases hbody
      obtain ⟨i, hi⟩ := List.mem_iff_getElem?.1 hmsg
      have hmove : Moves s (.deliver i ⟨[], []⟩) dst ⟨[], []⟩ (.message src (.graft m)) _ :=
        .deliver hi h.up.2
      obtain ⟨payload, hout⟩ := answer_of_graft
        (show (s.node dst).part ⟨[], []⟩ (.message src (.graft m)) = some _ from rfl) h.has
      have hnext := h.answered hmove
      obtain ⟨s', hs', hdel⟩ := delivers_of_gossip hnext
        (mem_inFlight_ran.2 (.inr ⟨_, hout, rfl⟩))
      exact ⟨s', payload, (Continues.single hmove trivial rfl).trans hs', hdel⟩
    | gossip mid payload => cases hbody
    | ihave ids => cases hbody
    | prune => cases hbody
  · cases body with
    | gossip mid payload =>
      cases hbody
      obtain ⟨s', hs', hdel⟩ := delivers_of_gossip h hmsg
      exact ⟨s', payload, hs', hdel⟩
    | graft mid => cases hbody
    | ihave ids => cases hbody
    | prune => cases hbody

/-- Node `a` still pursues the id: a graft or an answer is under way, or `b` is on its list at the
given urgency or nearer and only the given handlers are suspended. -/
def Pursues (a b : ν) (m : μ) (d : List (μ × β)) (u : ℕ) (ts : List (PtThread ν μ β))
    (s : PtSwarm ν μ β) : Prop :=
  Pursuit a b m d s ∧ (Mended a b m s ∨
    s.threads a = ts ∧ (s.node a).HeardFrom m b ∧ (s.node a).urgency m b ≤ u)

section
omit [DecidableEq μ]

theorem Moves.resumeLast {s : PtSwarm ν μ β} (hn : n ∉ s.crashed) (hts : s.threads n = ts ++ [th])
    (o : PtOrders ν) : ∃ t, Moves s (.resume n ts.length o) n o (.thread th) t ∧
      t.threads n = ts := by
  have hget : (s.threads n)[ts.length]? = some th := by
    rw [hts, List.getElem?_append_right le_rfl, Nat.sub_self]
    rfl
  refine ⟨_, .resume hn hget, ?_⟩
  dsimp only
  rw [Function.update_self, hts, List.eraseIdx_append_of_length_le le_rfl, Nat.sub_self]
  exact List.append_nil ts

end

theorem Pursuit.ended {s : PtSwarm ν μ β} (h : Pursuit a b m d s) (hm : Moves s act a o i t)
    (hts : t.threads a = ts) (hy : Plumtree.Nears m b u (s.node a) y) :
    Pursues a b m d u ts (t.ran a ⟨y, none⟩) := by
  refine ⟨h.ran hm hy.received hy.delivered, .inr ⟨?_, ?_, ?_⟩⟩
  · rw [ran_threads, Function.update_self, hts]
    exact List.append_nil ts
  · rw [ran_node, Function.update_self]
    exact hy.heard
  · rw [ran_node, Function.update_self]
    exact hy.urgency

theorem Pursuit.suspended {s : PtSwarm ν μ β} (h : Pursuit a b m d s) (hm : Moves s act a o i t)
    (hts : t.threads a = ts) (hy : Plumtree.Nears m b u (s.node a) y) :
    Pursuit a b m d (t.ran a ⟨y, some (p, c, w)⟩) ∧
      (t.ran a ⟨y, some (p, c, w)⟩).threads a = ts ++ [w] ∧
      (t.ran a ⟨y, some (p, c, w)⟩).node a = y := by
  refine ⟨h.ran hm hy.received hy.delivered, ?_, ?_⟩
  · rw [ran_threads, Function.update_self, hts]
    rfl
  · rw [ran_node, Function.update_self]

/-- The repairs of node `a` can be run to their end, and `b` gets nearer when they meet the id. -/
theorem finish_repair (k : ℕ) {s : PtSwarm ν μ β} (hk : mids.length ≤ k)
    (h : Pursuit a b m d s) (hm : Moves s act a o i t) (hact : act.Continues)
    (hts : t.threads a = ts) (hr : (s.node a).part o i = some (y.repairOn mids))
    (hy : Plumtree.Nears m b u (s.node a) y) :
    ∃ s', Continues s s' ∧ Pursues a b m d u ts s' ∧
      (y.Repairable mids → m ∈ mids → Mended a b m s' ∨ (s'.node a).urgency m b < u) := by
  induction k generalizing s act o i t y mids u with
  | zero =>
    rw [List.eq_nil_of_length_eq_zero (Nat.le_zero.1 hk)] at hr ⊢
    exact ⟨_, .single hm hact hr, h.ended hm hts hy, fun _ hmem => by cases hmem⟩
  | succ k ih =>
    have hnone : y.received.get m = none := by
      rw [hy.received]
      exact h.lacks
    rcases Plumtree.repairOn_nears hy.heard hnone mids with ⟨z, mids', hz, hzrec, hzdel⟩ |
      ⟨z, peer, mid, mids', hz, hnear, hlen, htouch⟩ | ⟨z, hz, hnear, htouch⟩
    · rw [hz] at hr
      have hmend : Mended a b m (t.ran a ⟨z, some (b, .graft m, .repair mids')⟩) :=
        ⟨_, mem_inFlight_ran.2 (.inr ⟨_, rfl, rfl⟩), .inl ⟨rfl, rfl, rfl⟩⟩
      exact ⟨_, .single hm hact hr, ⟨h.ran hm (hzrec.trans hy.received)
        (hzdel.trans hy.delivered), .inl hmend⟩, fun _ _ => .inl hmend⟩
    · rw [hz] at hr
      obtain ⟨hp, hth, hnode⟩ := h.suspended (p := peer) (c := .graft mid)
        (w := .repair mids') hm hts (hy.trans hnear)
      obtain ⟨t', hm', hts'⟩ := Moves.resumeLast hp.up.1 hth ⟨[], []⟩
      have hlen' : mids'.length ≤ k := Nat.le_of_lt_succ (hlen.trans_le hk)
      have hz' : Plumtree.Nears m b (z.urgency m b)
          ((t.ran a ⟨z, some (peer, .graft mid, .repair mids')⟩).node a) z := by
        rw [hnode]
        exact ⟨rfl, rfl, hnear.heard, le_rfl⟩
      have hr' : ((t.ran a ⟨z, some (peer, .graft mid, .repair mids')⟩).node a).part ⟨[], []⟩
          (.thread (.repair mids')) = some (z.repairOn mids') := by
        rw [hnode]
        rfl
      have hzu : z.urgency m b ≤ u := hnear.urgency.trans hy.urgency
      obtain ⟨s', hs', ⟨hp', hend⟩, hlt⟩ := ih hlen' hp hm' trivial hts' hr' hz'
      refine ⟨s', (Continues.single hm hact hr).trans hs', ⟨hp', ?_⟩, fun hok hmem => ?_⟩
      · exact hend.imp_right (fun hw => ⟨hw.1, hw.2.1, hw.2.2.trans hzu⟩)
      · rcases hend with hend | ⟨_, _, hle⟩
        · exact .inl hend
        · rcases htouch hok hmem with hlt' | ⟨hmem', hok'⟩
          · exact .inr ((hle.trans_lt hlt').trans_le hy.urgency)
          · exact (hlt hok' hmem').imp_right (fun hw => hw.trans_le hzu)
    · rw [hz] at hr
      refine ⟨_, .single hm hact hr, h.ended hm hts ((hy.trans hnear).mono hy.urgency),
        fun hok hmem => .inr ?_⟩
      rw [ran_node, Function.update_self]
      exact (htouch hok hmem).trans_le hy.urgency

theorem finish_flush {l : List (ν × List μ)} {s : PtSwarm ν μ β} (h : Pursuit a b m d s)
    (hm : Moves s act a o i t) (hact : act.Continues) (hts : t.threads a = ts)
    (hr : (s.node a).part o i = some (y.flushOn l)) (hy : Plumtree.Nears m b u (s.node a) y) :
    ∃ s', Continues s s' ∧ Pursues a b m d u ts s' ∧
      (Mended a b m s' ∨ (s'.node a).urgency m b < u) := by
  induction l generalizing s act o i t with
  | nil =>
    obtain ⟨s', hs', hp, hlt⟩ := finish_repair _ le_rfl h hm hact hts hr hy
    refine ⟨s', hs', hp, hlt ⟨y.missing.nodup, fun mid hmid => .inr ?_⟩ ?_⟩
    · obtain ⟨w, hw⟩ := Dict.mem_keys.1 hmid
      rw [hw]
      exact Option.some_ne_none _
    · exact Dict.mem_keys.2 (Option.ne_none_iff_exists'.1 hy.heard.1)
  | cons p l ih =>
    obtain ⟨hp, hth, hnode⟩ := h.suspended (p := p.1) (c := .ihave p.2) (w := .flush l) hm hts hy
    obtain ⟨t', hm', hts'⟩ := Moves.resumeLast hp.up.1 hth ⟨[], []⟩
    have hr' : ((t.ran a ⟨y, some (p.1, .ihave p.2, .flush l)⟩).node a).part ⟨[], []⟩
        (.thread (.flush l)) = some (y.flushOn l) := by
      rw [hnode]
      rfl
    have hy' : Plumtree.Nears m b u
        ((t.ran a ⟨y, some (p.1, .ihave p.2, .flush l)⟩).node a) y := by
      rw [hnode]
      exact ⟨rfl, rfl, hy.heard, hy.urgency⟩
    obtain ⟨s', hs', hend⟩ := ih hp hm' trivial hts' hr' hy'
    exact ⟨s', (Continues.single hm hact hr).trans hs', hend⟩

theorem nears_of_pushOn {x : Plumtree ν μ β} (hx : x.HeardFrom m b) (hu : x.urgency m b ≤ u)
    (h : x.pushOn peers mid payload sender o = some r) : Plumtree.Nears m b u x r.node := by
  rcases Plumtree.pushOn_spec h with ⟨peer, rest, _, rfl⟩ | ⟨order, _, _, rfl⟩
  · exact ⟨rfl, rfl, hx, hu⟩
  · exact ⟨rfl, rfl, hx, hu⟩

theorem finish_push {s : PtSwarm ν μ β} (peers : List ν) (h : Pursuit a b m d s)
    (hth : s.threads a = ts ++ [.push peers mid payload sender])
    (hx : (s.node a).HeardFrom m b) (hu : (s.node a).urgency m b ≤ u) :
    ∃ s', Continues s s' ∧ Pursues a b m d u ts s' := by
  induction peers generalizing s with
  | nil =>
    obtain ⟨t, hm, hts⟩ := Moves.resumeLast h.up.1 hth ⟨[], (s.node a).lazy.toList⟩
    obtain ⟨r, hr⟩ := Plumtree.exists_pushOn (s.node a) [] mid payload sender []
    have hnear := nears_of_pushOn hx hu hr
    rcases Plumtree.pushOn_spec hr with ⟨peer, rest, he, _⟩ | ⟨order, _, _, rfl⟩
    · cases he
    · exact ⟨_, .single hm trivial hr, h.ended hm hts hnear⟩
  | cons peer peers ih =>
    obtain ⟨t, hm, hts⟩ := Moves.resumeLast h.up.1 hth ⟨[], []⟩
    have hr : (s.node a).part ⟨[], []⟩ (.thread (.push (peer :: peers) mid payload sender)) =
      some ⟨s.node a, some (peer, .gossip mid payload, .push peers mid payload sender)⟩ := rfl
    obtain ⟨hp, hth', hnode⟩ := h.suspended (p := peer) (c := .gossip mid payload)
      (w := .push peers mid payload sender) hm hts ⟨rfl, rfl, hx, hu⟩
    obtain ⟨s', hs', hend⟩ := ih hp hth' (by rw [hnode]; exact hx) (by rw [hnode]; exact hu)
    exact ⟨s', (Continues.single hm trivial hr).trans hs', hend⟩

theorem finish_thread {s : PtSwarm ν μ β} {th : PtThread ν μ β} (h : Pursuit a b m d s)
    (hth : s.threads a = ts ++ [th]) (hx : (s.node a).HeardFrom m b)
    (hu : (s.node a).urgency m b ≤ u) : ∃ s', Continues s s' ∧ Pursues a b m d u ts s' := by
  have hself : Plumtree.Nears m b u (s.node a) (s.node a) := ⟨rfl, rfl, hx, hu⟩
  cases th with
  | push peers mid payload sender => exact finish_push peers h hth hx hu
  | flush l =>
    obtain ⟨t, hm, hts⟩ := Moves.resumeLast h.up.1 hth ⟨[], []⟩
    obtain ⟨s', hs', hp, _⟩ := finish_flush h hm trivial hts rfl hself
    exact ⟨s', hs', hp⟩
  | repair mids =>
    obtain ⟨t, hm, hts⟩ := Moves.resumeLast h.up.1 hth ⟨[], []⟩
    obtain ⟨s', hs', hp, _⟩ := finish_repair _ le_rfl h hm trivial hts rfl hself
    exact ⟨s', hs', hp⟩
  | done =>
    obtain ⟨t, hm, hts⟩ := Moves.resumeLast h.up.1 hth ⟨[], []⟩
    exact ⟨_, .single hm trivial rfl, h.ended hm hts hself⟩

theorem finish_threads {s : PtSwarm ν μ β} (ts : List (PtThread ν μ β)) (h : Pursuit a b m d s)
    (hth : s.threads a = ts) (hx : (s.node a).HeardFrom m b) (hu : (s.node a).urgency m b ≤ u) :
    ∃ s', Continues s s' ∧ Pursues a b m d u [] s' := by
  induction ts using List.reverseRecOn generalizing s with
  | nil => exact ⟨s, .refl s, h, .inr ⟨hth, hx, hu⟩⟩
  | append_singleton ts th ih =>
    obtain ⟨t, ht, hp, hend⟩ := finish_thread h hth hx hu
    rcases hend with hmend | ⟨hth', hx', hu'⟩
    · exact ⟨t, ht, hp, .inl hmend⟩
    · obtain ⟨s', hs', hend⟩ := ih hp hth' hx' hu'
      exact ⟨s', ht.trans hs', hend⟩

theorem delivers_of_ticks {s : PtSwarm ν μ β} (u : ℕ) (h : Pursues a b m d u [] s) :
    ∃ s' payload, Continues s s' ∧ (s'.node a).delivered = d ++ [(m, payload)] := by
  induction u using Nat.strong_induction_on generalizing s with
  | _ u ih =>
    obtain ⟨hp, hmend | ⟨hth, hx, hu⟩⟩ := h
    · exact delivers_of_mended hp hmend
    · have hm : Moves s (.tick a) a ⟨[], []⟩ .tick s := .tick hp.up.1
      have hr : (s.node a).part ⟨[], []⟩ .tick = some (Plumtree.flushOn
          { (s.node a).syncNeighbors with lazyQueue := [] }
          (Plumtree.byPeer (s.node a).lazyQueue).items) := rfl
      obtain ⟨t, ht, ⟨hp', hend⟩, hlt⟩ := finish_flush hp hm trivial hth hr ⟨rfl, rfl, hx, hu⟩
      rcases hend with hmend | ⟨hth', hx', _⟩
      · obtain ⟨s', payload, hs', hdel⟩ := delivers_of_mended hp' hmend
        exact ⟨s', payload, ht.trans hs', hdel⟩
      · rcases hlt with hmend | hlt
        · obtain ⟨s', payload, hs', hdel⟩ := delivers_of_mended hp' hmend
          exact ⟨s', payload, ht.trans hs', hdel⟩
        · obtain ⟨s', payload, hs', hdel⟩ := ih _ hlt ⟨hp', .inr ⟨hth', hx', le_rfl⟩⟩
          exact ⟨s', payload, ht.trans hs', hdel⟩

theorem delivers_of_chance {s : PtSwarm ν μ β} (h : Pursuit a b m d s) (hc : Chance a b m s) :
    ∃ s' payload, Continues s s' ∧ (s'.node a).delivered = d ++ [(m, payload)] := by
  rcases hc with hrec | hheard | hmend
  · exact absurd h.lacks hrec
  · obtain ⟨t, ht, hp⟩ := finish_threads _ h rfl hheard le_rfl
    obtain ⟨s', payload, hs', hdel⟩ := delivers_of_ticks _ hp
    exact ⟨s', payload, ht.trans hs', hdel⟩
  · exact delivers_of_mended h hmend

/-- In a run in which no step takes away the last chance, a node that misses an id can still get it
from any live node that announced it and has it cached, without a new broadcast or loss. -/
theorem missing_id_recovered {neighbors : ν → List ν} {graftTimeout cacheCap : ν → ℕ}
    {s : PtSwarm ν μ β} (a b : ν) (m : μ)
    (hrun : Run step (init neighbors graftTimeout cacheCap) past s)
    (hC : ∀ p ∈ past, Spares a b m p.1 p.2) (ha : a ∉ s.crashed) (hb : b ∉ s.crashed)
    (hmiss : (s.node a).missing.get m ≠ none) (hann : (b, a, m) ∈ s.announced)
    (hcached : (s.node b).received.get m ≠ none) :
    ∃ past' s' payload, Run step s past' s' ∧ (∀ p ∈ past', p.2.Continues) ∧
      (s'.node a).delivered = (s.node a).delivered ++ [(m, payload)] := by
  have hinv : Known s ∧ Tracked a b m s := by
    apply hrun.invariant hC
    · exact ⟨known_init neighbors graftTimeout cacheCap, fun h => by cases h⟩
    · intro s act s' hs hc hstep
      exact ⟨hs.1.step hstep, hs.2.step hc hstep⟩
  have hp : Pursuit a b m (s.node a).delivered s :=
    ⟨⟨ha, hb⟩, hinv.1.fresh a m hmiss, hcached, rfl⟩
  obtain ⟨s', payload, ⟨past', hrun', hC'⟩, hdel⟩ := delivers_of_chance hp (hinv.2 hann)
  exact ⟨past', s', payload, hrun', hC', hdel⟩

def triangle : PtSwarm (Fin 3) ℕ Unit :=
  init (fun n => [0, 1, 2].erase n) (fun _ => 2) (fun _ => 50000)

/-- A first broadcast makes the link between nodes 0 and 2 lazy; the second one does not reach node
0, to which node 2 announces it. -/
def announcement : List (PtAction (Fin 3) ℕ Unit) :=
  [.tick 0, .tick 1, .tick 2,
    .broadcast 1 10 () ⟨[0, 2], []⟩, .resume 1 0 ⟨[], []⟩, .resume 1 0 ⟨[], []⟩,
    .deliver 0 ⟨[1, 2], []⟩, .deliver 0 ⟨[0, 1], []⟩, .deliver 0 ⟨[], []⟩, .deliver 0 ⟨[], []⟩,
    .deliver 0 ⟨[], []⟩, .deliver 0 ⟨[], []⟩,
    .broadcast 1 20 () ⟨[0, 2], []⟩, .lose 0, .resume 1 0 ⟨[], []⟩, .resume 1 0 ⟨[], []⟩,
    .deliver 0 ⟨[1], [0]⟩, .tick 2, .deliver 0 ⟨[], []⟩]

theorem missing_id_recovered_in_triangle : ∃ past s, Run step triangle past s ∧
    (s.node 0).missing.get 20 = some 0 ∧ ∃ past' s' payload, Run step s past' s' ∧
      (∀ p ∈ past', p.2.Continues) ∧
      (s'.node 0).delivered = (s.node 0).delivered ++ [(20, payload)] := by
  obtain ⟨past, s, hr, hC, hs⟩ := exists_run_of_execWhere step (Spares 0 2 20) triangle announcement
    (fun s => decide (0 ∉ s.crashed ∧ 2 ∉ s.crashed ∧ (s.node 0).missing.get 20 = some 0 ∧
      (2, 0, 20) ∈ s.announced ∧ (s.node 2).received.get 20 = some ())) true (by decide)
  obtain ⟨ha, hb, hmiss, hann, hcached⟩ := of_decide_eq_true hs
  refine ⟨past, s, hr, hmiss, ?_⟩
  apply missing_id_recovered 0 2 20 hr hC ha hb _ hann
  · rw [hcached]
    exact Option.some_ne_none _
  · rw [hmiss]
    exact Option.some_ne_none _

end PtSwarm

end Suprime
