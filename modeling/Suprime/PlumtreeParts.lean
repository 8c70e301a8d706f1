import Suprime.Plumtree

namespace Suprime
set_option autoImplicit true

/-- What makes a node run a part of a handler. -/
inductive PtInput (ν μ β : Type)
  | broadcast (mid : μ) (payload : β)
  | message (src : ν) (body : PtBody μ β)
  | thread (t : PtThread ν μ β)
  | tick

/-- The handler has still to push the id or to announce it. -/
def PtThread.Offers (m : μ) : PtThread ν μ β → Prop
  | .push _ mid _ _ => mid = m
  | .flush byPeer => ∃ p ∈ byPeer, m ∈ p.2
  | _ => False

/-- The message carries or announces the id. -/
def PtBody.Offers (m : μ) : PtBody μ β → Prop
  | .gossip mid _ => mid = m
  | .ihave ids => m ∈ ids
  | _ => False

namespace Plumtree

variable {ν μ β : Type} [DecidableEq ν] [DecidableEq μ]

def part (x : Plumtree ν μ β) (o : PtOrders ν) : PtInput ν μ β → Option (PtResult ν μ β)
  | .broadcast mid payload => x.broadcast mid payload o
  | .message src body => x.handle src o body
  | .thread t => x.resume o t
  | .tick => some x.tick

/-- The service has the id in its queue of announcements. -/
def Queues (x : Plumtree ν μ β) (m : μ) : Prop := ∃ peer, (peer, m) ∈ x.lazyQueue

/-- The input makes the service pass the id on: the id is new to it or a handler goes on with it. -/
def Passes (x : Plumtree ν μ β) (m : μ) : PtInput ν μ β → Prop
  | .broadcast mid _ => mid = m
  | .message _ (.gossip mid _) => mid = m ∧ x.received.get mid = none
  | .thread t => t.Offers m
  | _ => False

section
omit [DecidableEq ν]

theorem record_fields (x : Plumtree ν μ β) (mid : μ) (payload : β) :
    (x.record mid payload).missing = x.missing ∧
      (x.record mid payload).ihaveFrom = x.ihaveFrom ∧
      (x.record mid payload).lazyQueue = x.lazyQueue ∧
      (x.record mid payload).eager = x.eager ∧ (x.record mid payload).lazy = x.lazy ∧
      (x.record mid payload).delivered = x.delivered ∧
      (x.record mid payload).graftTimeout = x.graftTimeout := by
  unfold record
  dsimp only
  split
  · exact ⟨rfl, rfl, rfl, rfl, rfl, rfl, rfl⟩
  · exact ⟨rfl, rfl, rfl, rfl, rfl, rfl, rfl⟩

end

theorem get_of_tail {d : Dict μ β} {h : (d.items.tail.map Prod.fst).Nodup}
    (hm : (⟨d.items.tail, h⟩ : Dict μ β).get m = some p) : d.get m = some p :=
  Dict.mem_items.1 (List.mem_of_mem_tail (Dict.mem_items.2 hm))

section
omit [DecidableEq ν]

theorem received_record {x : Plumtree ν μ β}
    (h : (x.record mid payload).received.get m = some p) :
    m = mid ∨ x.received.get m = some p := by
  have hset : (x.received.set mid payload).get m = some p := by
    unfold record at h
    dsimp only at h
    split at h
    · exact get_of_tail h
    · exact h
  rw [Dict.get_set] at hset
  split at hset
  · exact .inl ‹_›
  · exact .inr hset

end

section
omit [DecidableEq μ]

theorem pushOn_spec {x : Plumtree ν μ β} {r : PtResult ν μ β}
    (h : x.pushOn peers mid payload sender o = some r) :
    (∃ peer rest, peers = peer :: rest ∧
      r = ⟨x, some (peer, .gossip mid payload, .push rest mid payload sender)⟩) ∨
    ∃ order, peers = [] ∧ listing x.lazy o.lazy = some order ∧
      r = ⟨x.lazyPush mid sender order, none⟩ := by
  cases peers with
  | nil =>
    obtain ⟨order, ho, h⟩ := Option.bind_eq_some_iff.1 h
    cases h
    exact .inr ⟨order, rfl, ho, rfl⟩
  | cons peer rest =>
    cases h
    exact .inl ⟨peer, rest, rfl, rfl⟩

theorem eagerPush_spec {x : Plumtree ν μ β} {r : PtResult ν μ β}
    (h : x.eagerPush mid payload sender o = some r) :
    ∃ order, listing x.eager o.eager = some order ∧
      x.pushOn (order.filter (fun peer => some peer ≠ sender)) mid payload sender o = some r :=
  Option.bind_eq_some_iff.1 h

theorem queues_lazyPush {x : Plumtree ν μ β} (h : (x.lazyPush mid sender order).Queues m) :
    x.Queues m ∨ mid = m := by
  obtain ⟨peer, hp⟩ := h
  rcases List.mem_append.1 hp with hp | hp
  · exact .inl ⟨peer, hp⟩
  · obtain ⟨q, _, heq⟩ := List.mem_map.1 hp
    exact .inr (Prod.mk.inj heq).2

theorem pushOn_fields {x : Plumtree ν μ β} {r : PtResult ν μ β}
    (h : x.pushOn peers mid payload sender o = some r) :
    r.node.received = x.received ∧ r.node.missing = x.missing ∧
      r.node.ihaveFrom = x.ihaveFrom ∧ r.node.eager = x.eager ∧ r.node.lazy = x.lazy ∧
      r.node.delivered = x.delivered ∧
      (∀ m, r.node.Queues m → x.Queues m ∨ mid = m) ∧
      ∀ q ∈ r.out, q.2.1 = .gossip mid payload ∧
        ∃ rest, q.2.2 = .push rest mid payload sender := by
  rcases pushOn_spec h with ⟨peer, rest, _, rfl⟩ | ⟨order, _, _, rfl⟩
  · refine ⟨rfl, rfl, rfl, rfl, rfl, rfl, fun m hm => .inl hm, fun q hq => ?_⟩
    cases hq
    exact ⟨rfl, rest, rfl⟩
  · refine ⟨rfl, rfl, rfl, rfl, rfl, rfl, fun m hm => queues_lazyPush hm, fun q hq => ?_⟩
    cases hq

end

/-- The service between the arrival of a new id and the push. -/
def admitted (x : Plumtree ν μ β) (src : ν) (mid : μ) (payload : β) : Plumtree ν μ β :=
  { x.record mid payload with
    missing := x.missing.erase mid
    ihaveFrom := x.ihaveFrom.erase mid
    eager := insert src x.eager
    lazy := x.lazy.erase src
    delivered := x.delivered ++ [(mid, payload)] }

/-- The service between the choice of an id and the push. -/
def started (x : Plumtree ν μ β) (mid : μ) (payload : β) : Plumtree ν μ β :=
  { x.syncNeighbors.record mid payload with delivered := x.delivered ++ [(mid, payload)] }

theorem broadcast_eq (x : Plumtree ν μ β) (mid : μ) (payload : β) (o : PtOrders ν) :
    x.broadcast mid payload o = (x.started mid payload).eagerPush mid payload none o := by
  have hf := record_fields x.syncNeighbors mid payload
  unfold broadcast deliver started
  rw [hf.2.2.2.2.2.1]
  rfl

theorem broadcast_spec {x : Plumtree ν μ β} {r : PtResult ν μ β}
    (h : x.broadcast mid payload o = some r) :
    ∃ order, listing (x.started mid payload).eager o.eager = some order ∧
      (x.started mid payload).pushOn (order.filter (fun peer => some peer ≠ none)) mid payload
        none o = some r :=
  eagerPush_spec (broadcast_eq x mid payload o ▸ h)

theorem onGossip_new {x : Plumtree ν μ β} (h : x.received.get mid = none) :
    x.onGossip src mid payload o =
      (x.admitted src mid payload).eagerPush mid payload (some src) o := by
  have hf := record_fields x mid payload
  unfold onGossip deliver admitted
  rw [if_pos h]
  simp only [hf]

theorem onGossip_spec {x : Plumtree ν μ β} {r : PtResult ν μ β}
    (h : x.onGossip src mid payload o = some r) :
    (x.received.get mid = none ∧
      ∃ order, listing (x.admitted src mid payload).eager o.eager = some order ∧
        (x.admitted src mid payload).pushOn (order.filter (fun peer => some peer ≠ some src)) mid
          payload (some src) o = some r) ∨
    (x.received.get mid ≠ none ∧
      r = ⟨{ x with eager := x.eager.erase src, lazy := insert src x.lazy },
        some (src, .prune, .done)⟩) := by
  by_cases hnone : x.received.get mid = none
  · rw [onGossip_new hnone] at h
    exact .inl ⟨hnone, eagerPush_spec h⟩
  · rw [onGossip, if_neg hnone] at h
    cases h
    exact .inr ⟨hnone, rfl⟩

/-- The peers that announced an id, in the order in which they will be grafted. -/
def announcers (x : Plumtree ν μ β) (m : μ) : List ν := (x.ihaveFrom.get m).getD []

/-- The id is missing, and the peer is among those that announced it. -/
def HeardFrom (x : Plumtree ν μ β) (m : μ) (peer : ν) : Prop :=
  x.missing.get m ≠ none ∧ peer ∈ x.announcers m

/-- What the repairs of `_tick` change and send, up to the next graft. -/
structure Repaired (x : Plumtree ν μ β) (r : PtResult ν μ β) : Prop where
  received : r.node.received = x.received
  lazyQueue : r.node.lazyQueue = x.lazyQueue
  delivered : r.node.delivered = x.delivered
  missing : ∀ m, r.node.missing.get m ≠ none → x.missing.get m ≠ none
  keeps : ∀ m, x.received.get m = none → x.missing.get m ≠ none → r.node.missing.get m ≠ none
  announcers : ∀ m, r.node.announcers m = x.announcers m ∨ ∃ peer mids,
    x.announcers m = peer :: r.node.announcers m ∧ r.out = some (peer, .graft m, .repair mids)
  out : ∀ q ∈ r.out, ∃ mid mids, q.2 = (.graft mid, .repair mids) ∧
    x.announcers mid = q.1 :: r.node.announcers mid

section
omit [DecidableEq ν]

theorem Repaired.of_missing {x : Plumtree ν μ β} {r : PtResult ν μ β} {missing : Dict μ ℕ}
    (h : Repaired { x with missing := missing } r)
    (hsub : ∀ m, missing.get m ≠ none → x.missing.get m ≠ none)
    (hkeep : ∀ m, x.received.get m = none → x.missing.get m ≠ none → missing.get m ≠ none) :
    Repaired x r :=
  ⟨h.received, h.lazyQueue, h.delivered, fun m hm => hsub m (h.missing m hm),
    fun m hr hm => h.keeps m hr (hkeep m hr hm), h.announcers, h.out⟩

end

theorem repaired (x : Plumtree ν μ β) (mids : List μ) : Repaired x (x.repairOn mids) := by
  induction mids generalizing x with
  | nil =>
    exact ⟨rfl, rfl, rfl, fun _ h => h, fun _ _ h => h, fun _ => .inl rfl, fun q hq => by cases hq⟩
  | cons mid mids ih =>
    unfold repairOn
    split
    · rename_i hrec
      apply (ih _).of_missing
      · intro m hm
        rw [Dict.get_erase] at hm
        split at hm
        · exact absurd rfl hm
        · exact hm
      · intro m hr hm
        have hne : m ≠ mid := by
          intro he
          rw [he] at hr
          exact hrec hr
        rw [Dict.get_erase, if_neg hne]
        exact hm
    · split
      · exact ⟨rfl, rfl, rfl, fun _ h => h, fun _ _ h => h, fun _ => .inl rfl,
          fun q hq => by cases hq⟩
      · rename_i waited hwait
        have hsub : ∀ w m, (x.missing.set mid w).get m ≠ none → x.missing.get m ≠ none := by
          intro w m hm
          rw [Dict.get_set] at hm
          split at hm
          · rename_i he
            rw [he, hwait]
            exact Option.some_ne_none _
          · exact hm
        have hkeep : ∀ w m, x.missing.get m ≠ none → (x.missing.set mid w).get m ≠ none := by
          intro w m hm
          rw [Dict.get_set]
          split
          · exact Option.some_ne_none _
          · exact hm
        split
        · rename_i peer hs hpeer
          split
          · have hself : ((x.ihaveFrom.set mid hs).get mid).getD [] = hs := by
              rw [Dict.get_set_self]
              rfl
            refine ⟨rfl, rfl, rfl, hsub 0, fun m _ => hkeep 0 m, fun m => ?_, fun q hq => ?_⟩
            · by_cases hm : m = mid
              · subst hm
                refine .inr ⟨peer, mids, ?_, rfl⟩
                exact hpeer.trans (congrArg _ hself.symm)
              · exact .inl (congrArg (Option.getD · []) (Dict.get_set_ne _ _ hm))
            · cases hq
              exact ⟨mid, mids, rfl, hpeer.trans (congrArg _ hself.symm)⟩
          · exact (ih _).of_missing (hsub _) (fun m _ => hkeep _ m)
        · exact (ih _).of_missing (hsub _) (fun m _ => hkeep _ m)

section
omit [DecidableEq μ]

theorem mem_byPeer {queue : List (ν × μ)} (h : (byPeer queue).get peer = some ids) (hm : m ∈ ids) :
    (peer, m) ∈ queue := by
  induction queue using List.reverseRecOn generalizing ids with
  | nil => cases h
  | append_singleton queue p ih =>
    have hby : byPeer (queue ++ [p]) =
        (byPeer queue).set p.1 (((byPeer queue).get p.1).getD [] ++ [p.2]) := by
      rw [byPeer, List.foldl_append]
      rfl
    rw [hby, Dict.get_set] at h
    by_cases hp : peer = p.1
    · rw [if_pos hp] at h
      cases h
      rcases List.mem_append.1 hm with hm | hm
      · cases hget : (byPeer queue).get p.1 with
        | none =>
          rw [hget] at hm
          cases hm
        | some l =>
          rw [hget] at hm
          exact List.mem_append_left _ (hp ▸ ih (hp ▸ hget) hm)
      · rw [List.mem_singleton.1 hm, hp]
        exact List.mem_append_right _ List.mem_cons_self
    · rw [if_neg hp] at h
      exact List.mem_append_left _ (ih h hm)

end

theorem onIhave_fields (x : Plumtree ν μ β) (src : ν) (ids : List μ) :
    (x.onIhave src ids).received = x.received ∧ (x.onIhave src ids).lazyQueue = x.lazyQueue ∧
      (x.onIhave src ids).delivered = x.delivered ∧ (x.onIhave src ids).eager = x.eager ∧
      (x.onIhave src ids).lazy = x.lazy := by
  unfold onIhave
  induction ids generalizing x with
  | nil => exact ⟨rfl, rfl, rfl, rfl, rfl⟩
  | cons mid ids ih =>
    have hhear : (hear src x mid).received = x.received ∧
        (hear src x mid).lazyQueue = x.lazyQueue ∧ (hear src x mid).delivered = x.delivered ∧
        (hear src x mid).eager = x.eager ∧ (hear src x mid).lazy = x.lazy := by
      unfold hear
      split
      · exact ⟨rfl, rfl, rfl, rfl, rfl⟩
      · exact ⟨rfl, rfl, rfl, rfl, rfl⟩
    obtain ⟨h₁, h₂, h₃, h₄, h₅⟩ := ih (hear src x mid)
    exact ⟨h₁.trans hhear.1, h₂.trans hhear.2.1, h₃.trans hhear.2.2.1, h₄.trans hhear.2.2.2.1,
      h₅.trans hhear.2.2.2.2⟩

theorem get_setDefault (d : Dict μ ℕ) (mid m : μ) (v : ℕ) :
    (d.setDefault mid v).get m = if m = mid then some ((d.get mid).getD v) else d.get m := by
  unfold Dict.setDefault
  cases hd : d.get mid with
  | none =>
    dsimp only
    rw [Dict.get_set]
    rfl
  | some w =>
    dsimp only
    split
    · rename_i he
      rw [he, hd]
      rfl
    · rfl

theorem announcers_hear (x : Plumtree ν μ β) (src : ν) (mid m : μ) :
    (hear src x mid).announcers m = if m = mid ∧ x.received.get m = none ∧ src ∉ x.announcers m
      then x.announcers m ++ [src] else x.announcers m := by
  unfold hear
  by_cases hm : m = mid
  · subst hm
    by_cases hnone : x.received.get m = none
    · rw [if_pos hnone]
      change ((x.ihaveFrom.set m _).get m).getD [] = _
      rw [Dict.get_set_self, Option.getD_some]
      change (if src ∈ x.announcers m then x.announcers m else x.announcers m ++ [src]) = _
      by_cases hsrc : src ∈ x.announcers m
      · simp [hsrc]
      · simp [hsrc, hnone]
    · simp [hnone]
  · split
    · rw [if_neg (fun h => hm h.1)]
      exact congrArg (Option.getD · []) (Dict.get_set_ne _ _ hm)
    · rw [if_neg (fun h => hm h.1)]

theorem hear_spec (x : Plumtree ν μ β) (src : ν) (mid m : μ) :
    ((hear src x mid).missing.get m ≠ none ↔ x.missing.get m ≠ none ∨
      m = mid ∧ x.received.get m = none) ∧
    ∀ peer, peer ∈ (hear src x mid).announcers m ↔ peer ∈ x.announcers m ∨
      peer = src ∧ m = mid ∧ x.received.get m = none := by
  constructor
  · unfold hear
    by_cases hm : m = mid
    · subst hm
      by_cases hnone : x.received.get m = none
      · simp [hnone, get_setDefault]
      · simp [hnone]
    · split
      · simp [hm, get_setDefault]
      · simp [hm]
  · intro peer
    rw [announcers_hear]
    split
    · rename_i h
      simp [h.1 ▸ h.2.1, h.1]
    · rename_i h
      constructor
      · exact .inl
      · rintro (hp | ⟨rfl, hm, hnone⟩)
        · exact hp
        · by_contra hp
          exact h ⟨hm, hnone, hp⟩

theorem onIhave_spec (x : Plumtree ν μ β) (src : ν) (ids : List μ) (m : μ) :
    ((x.onIhave src ids).missing.get m ≠ none ↔ x.missing.get m ≠ none ∨
      m ∈ ids ∧ x.received.get m = none) ∧
    ∀ peer, peer ∈ (x.onIhave src ids).announcers m ↔ peer ∈ x.announcers m ∨
      peer = src ∧ m ∈ ids ∧ x.received.get m = none := by
  induction ids generalizing x with
  | nil => simp [onIhave]
  | cons mid ids ih =>
    have hrec : (hear src x mid).received = x.received := (onIhave_fields x src [mid]).1
    have hrest := ih (hear src x mid)
    rw [hrec] at hrest
    have hone := hear_spec x src mid m
    constructor
    · refine hrest.1.trans ?_
      rw [hone.1, List.mem_cons, or_assoc, ← or_and_right]
    · intro peer
      refine (hrest.2 peer).trans ?_
      rw [hone.2 peer, List.mem_cons, or_assoc, ← and_or_left, ← or_and_right]

/-- What a part of a handler can change and send, as far as one id is concerned. -/
structure PartEffect (x : Plumtree ν μ β) (i : PtInput ν μ β) (m : μ) (r : PtResult ν μ β) :
    Prop where
  queue : r.node.Queues m → x.Queues m ∨ x.Passes m i
  received : r.node.received.get m ≠ none → x.received.get m ≠ none ∨ x.Passes m i
  delivered : ∀ p, (m, p) ∈ r.node.delivered → (m, p) ∈ x.delivered ∨ x.Passes m i
  missing : r.node.missing.get m ≠ none → x.missing.get m ≠ none ∨
    ∃ src ids, i = .message src (.ihave ids) ∧ m ∈ ids
  announcers : ∀ p ∈ r.node.announcers m, p ∈ x.announcers m ∨
    ∃ ids, i = .message p (.ihave ids) ∧ m ∈ ids
  heard : ∀ b, x.HeardFrom m b → x.received.get m = none → r.node.HeardFrom m b ∨
    (∃ t, r.out = some (b, .graft m, t)) ∨ ∃ src payload, i = .message src (.gossip m payload)
  fresh : (∀ payload, i ≠ .broadcast m payload) →
    (x.missing.get m ≠ none → x.received.get m = none) →
    r.node.missing.get m ≠ none → r.node.received.get m = none
  thread : ∀ q ∈ r.out, q.2.2.Offers m → x.Queues m ∨ x.Passes m i
  body : ∀ q ∈ r.out, q.2.1.Offers m → x.Queues m ∨ x.Passes m i ∨
    (∃ src, i = .message src (.graft m)) ∧ x.received.get m ≠ none
  graft : ∀ q ∈ r.out, q.2.1 = .graft m → x.announcers m = q.1 :: r.node.announcers m

theorem PartEffect.push {x y : Plumtree ν μ β} (h : PartEffect x i m ⟨y, none⟩)
    (hpush : y.pushOn peers mid payload sender o = some r) (hpass : mid = m → x.Passes m i) :
    PartEffect x i m r := by
  obtain ⟨hrec, hmiss, hihave, _, _, hdel, hqueue, hout⟩ := pushOn_fields hpush
  have hann : r.node.announcers m = y.announcers m := by
    unfold Plumtree.announcers
    rw [hihave]
  constructor
  · intro hq
    rcases hqueue m hq with hq | hm
    · exact h.queue hq
    · exact .inr (hpass hm)
  · rw [hrec]
    exact h.received
  · rw [hdel]
    exact h.delivered
  · rw [hmiss]
    exact h.missing
  · rw [hann]
    exact h.announcers
  · intro b hb hnone
    rcases h.heard b hb hnone with hy | ⟨_, hy⟩ | hg
    · refine .inl ⟨?_, ?_⟩
      · rw [hmiss]
        exact hy.1
      · rw [hann]
        exact hy.2
    · cases hy
    · exact .inr (.inr hg)
  · rw [hrec, hmiss]
    exact h.fresh
  · intro q hq hoff
    obtain ⟨_, rest, hthread⟩ := hout q hq
    rw [hthread] at hoff
    exact .inr (hpass hoff)
  · intro q hq hoff
    rw [(hout q hq).1] at hoff
    exact .inr (.inl (hpass hoff))
  · intro q hq hgraft
    rw [(hout q hq).1] at hgraft
    cases hgraft

section
omit [DecidableEq ν]

/-- A part that keeps all but the eager and the lazy set and sends nothing that concerns the id. -/
theorem PartEffect.of_same {x y : Plumtree ν μ β} (hrec : y.received = x.received)
    (hmiss : y.missing = x.missing) (hihave : y.ihaveFrom = x.ihaveFrom)
    (hdel : y.delivered = x.delivered) (hqueue : ∀ q ∈ y.lazyQueue, q ∈ x.lazyQueue)
    (hthread : ∀ q ∈ out, q.2.2.Offers m → x.Queues m ∨ x.Passes m i)
    (hbody : ∀ q ∈ out, q.2.1.Offers m → x.Queues m ∨ x.Passes m i ∨
      (∃ src, i = .message src (.graft m)) ∧ x.received.get m ≠ none)
    (hgraft : ∀ q ∈ out, q.2.1 ≠ .graft m) : PartEffect x i m ⟨y, out⟩ := by
  have hann : y.announcers m = x.announcers m := by
    unfold Plumtree.announcers
    rw [hihave]
  have hheard : ∀ b, x.HeardFrom m b → y.HeardFrom m b := by
    intro b hb
    unfold HeardFrom
    rw [hmiss, hann]
    exact hb
  constructor
  · intro ⟨p, hp⟩
    exact .inl ⟨p, hqueue _ hp⟩
  · rw [hrec]
    exact .inl
  · rw [hdel]
    exact fun p hp => .inl hp
  · rw [hmiss]
    exact .inl
  · rw [hann]
    exact fun p hp => .inl hp
  · exact fun b hb _ => .inl (hheard b hb)
  · rw [hrec, hmiss]
    exact fun _ h => h
  · exact hthread
  · exact hbody
  · exact fun q hq hg => absurd hg (hgraft q hq)

theorem PartEffect.repaired {x y : Plumtree ν μ β} (hrec : y.received = x.received)
    (hmiss : y.missing = x.missing) (hihave : y.ihaveFrom = x.ihaveFrom)
    (hdel : y.delivered = x.delivered) (hqueue : ∀ q ∈ y.lazyQueue, q ∈ x.lazyQueue)
    (h : Repaired y r) : PartEffect x i m r := by
  have hann : ∀ m, y.announcers m = x.announcers m := by
    intro m
    unfold Plumtree.announcers
    rw [hihave]
  constructor
  · intro ⟨p, hp⟩
    rw [h.lazyQueue] at hp
    exact .inl ⟨p, hqueue _ hp⟩
  · rw [h.received, hrec]
    exact .inl
  · rw [h.delivered, hdel]
    exact fun p hp => .inl hp
  · intro hm
    exact .inl (hmiss ▸ h.missing m hm)
  · intro p hp
    rcases h.announcers m with he | ⟨peer, mids, he, _⟩
    · rw [he, hann] at hp
      exact .inl hp
    · rw [← hann, he]
      exact .inl (List.mem_cons_of_mem _ hp)
  · intro b hb hnone
    have hkeeps := h.keeps m (hrec ▸ hnone) (hmiss ▸ hb.1)
    have hmem : b ∈ y.announcers m := by
      rw [hann]
      exact hb.2
    rcases h.announcers m with he | ⟨peer, mids, he, hout⟩
    · exact .inl ⟨hkeeps, he ▸ hmem⟩
    · rw [he] at hmem
      rcases List.mem_cons.1 hmem with rfl | hmem
      · exact .inr (.inl ⟨_, hout⟩)
      · exact .inl ⟨hkeeps, hmem⟩
  · intro _ hfresh hm
    rw [h.received, hrec]
    exact hfresh (hmiss ▸ h.missing m hm)
  · intro q hq hoff
    obtain ⟨mid, mids, hq2, _⟩ := h.out q hq
    rw [hq2] at hoff
    cases hoff
  · intro q hq hoff
    obtain ⟨mid, mids, hq2, _⟩ := h.out q hq
    rw [hq2] at hoff
    cases hoff
  · intro q hq hgraft
    obtain ⟨mid, mids, hq2, hq3⟩ := h.out q hq
    rw [hq2] at hgraft
    cases hgraft
    rw [← hann]
    exact hq3

theorem received_record_ne {x : Plumtree ν μ β} (h : (x.record mid payload).received.get m ≠ none) :
    x.received.get m ≠ none ∨ mid = m := by
  obtain ⟨p, hp⟩ := Option.ne_none_iff_exists'.1 h
  rcases received_record hp with he | hget
  · exact .inr he.symm
  · rw [hget]
    exact .inl (Option.some_ne_none _)

end

section
omit [DecidableEq μ]

theorem mem_concat_delivered {l : List (μ × β)} (h : (m, p) ∈ l ++ [(mid, payload)]) :
    (m, p) ∈ l ∨ mid = m := by
  rcases List.mem_append.1 h with h | h
  · exact .inl h
  · rw [List.mem_singleton] at h
    exact .inr (Prod.mk.inj h).1.symm

end

theorem PartEffect.started (x : Plumtree ν μ β) (mid m : μ) (payload : β) :
    PartEffect x (.broadcast mid payload) m ⟨x.started mid payload, none⟩ := by
  obtain ⟨hmiss, hihave, hqueue, _⟩ := record_fields x.syncNeighbors mid payload
  have hann : (x.started mid payload).announcers m = x.announcers m :=
    congrArg (fun d : Dict μ (List ν) => (d.get m).getD []) hihave
  have hmiss' : (x.started mid payload).missing = x.missing := hmiss
  constructor
  · intro ⟨p, hp⟩
    have hp' : (p, m) ∈ (x.syncNeighbors.record mid payload).lazyQueue := hp
    rw [hqueue] at hp'
    exact .inl ⟨p, hp'⟩
  · intro h
    exact received_record_ne (x := x.syncNeighbors) h
  · intro p hp
    exact mem_concat_delivered hp
  · intro h
    exact .inl (hmiss' ▸ h)
  · intro p hp
    exact .inl (hann ▸ hp)
  · intro b hb _
    exact .inl ⟨hmiss' ▸ hb.1, hann ▸ hb.2⟩
  · intro hne hfresh hm
    by_contra hrec
    rcases received_record_ne (x := x.syncNeighbors) hrec with hrec | rfl
    · exact hrec (hfresh (hmiss' ▸ hm))
    · exact hne payload rfl
  · intro q hq
    cases hq
  · intro q hq
    cases hq
  · intro q hq
    cases hq

theorem PartEffect.admitted {x : Plumtree ν μ β} (hnone : x.received.get mid = none) :
    PartEffect x (.message src (.gossip mid payload)) m ⟨x.admitted src mid payload, none⟩ := by
  obtain ⟨_, _, hqueue, _⟩ := record_fields x mid payload
  have hann : ∀ m, (x.admitted src mid payload).announcers m =
      if m = mid then [] else x.announcers m := by
    intro m
    change ((x.ihaveFrom.erase mid).get m).getD [] = _
    rw [Dict.get_erase]
    split
    · rfl
    · rfl
  have hmiss : ∀ m, (x.admitted src mid payload).missing.get m =
      if m = mid then none else x.missing.get m := Dict.get_erase x.missing mid
  have hpass : mid = m → x.Passes m (.message src (.gossip mid payload)) := by
    intro hm
    exact ⟨hm, hnone⟩
  constructor
  · rintro ⟨p, hp⟩
    have hp' : (p, m) ∈ (x.record mid payload).lazyQueue := hp
    rw [hqueue] at hp'
    exact .inl ⟨p, hp'⟩
  · intro h
    exact (received_record_ne h).imp_right hpass
  · intro p hp
    exact (mem_concat_delivered hp).imp_right hpass
  · intro h
    have h' : (x.admitted src mid payload).missing.get m ≠ none := h
    rw [hmiss] at h'
    split at h'
    · exact absurd rfl h'
    · exact .inl h'
  · intro p hp
    have hp' : p ∈ (x.admitted src mid payload).announcers m := hp
    rw [hann] at hp'
    split at hp'
    · cases hp'
    · exact .inl hp'
  · intro b hb _
    by_cases hm : m = mid
    · subst hm
      exact .inr (.inr ⟨src, payload, rfl⟩)
    · refine .inl ⟨?_, ?_⟩
      · rw [hmiss, if_neg hm]
        exact hb.1
      · rw [hann, if_neg hm]
        exact hb.2
  · intro _ hfresh hm
    have hm' : (x.admitted src mid payload).missing.get m ≠ none := hm
    rw [hmiss] at hm'
    split at hm'
    · exact absurd rfl hm'
    · rename_i hne
      by_contra hrec
      rcases received_record_ne hrec with hrec | he
      · exact hrec (hfresh hm')
      · exact hne he.symm
  · intro q hq
    cases hq
  · intro q hq
    cases hq
  · intro q hq
    cases hq

theorem PartEffect.onIhave (x : Plumtree ν μ β) (src : ν) (ids : List μ) (m : μ) :
    PartEffect x (.message src (.ihave ids)) m ⟨x.onIhave src ids, none⟩ := by
  obtain ⟨hrec, hqueue, hdel, _, _⟩ := onIhave_fields x src ids
  obtain ⟨hmiss, hann⟩ := onIhave_spec x src ids m
  constructor
  · intro ⟨p, hp⟩
    have hp' : (p, m) ∈ (x.onIhave src ids).lazyQueue := hp
    rw [hqueue] at hp'
    exact .inl ⟨p, hp'⟩
  · rw [hrec]
    exact .inl
  · rw [hdel]
    exact fun p hp => .inl hp
  · intro h
    rcases hmiss.1 h with h | ⟨hm, _⟩
    · exact .inl h
    · exact .inr ⟨src, ids, rfl, hm⟩
  · intro p hp
    rcases (hann p).1 hp with hp | ⟨rfl, hm, _⟩
    · exact .inl hp
    · exact .inr ⟨ids, rfl, hm⟩
  · intro b hb _
    exact .inl ⟨hmiss.2 (.inl hb.1), (hann b).2 (.inl hb.2)⟩
  · intro _ hfresh hm
    rw [hrec]
    rcases hmiss.1 hm with hm | ⟨_, hnone⟩
    · exact hfresh hm
    · exact hnone
  · intro q hq
    cases hq
  · intro q hq
    cases hq
  · intro q hq
    cases hq

theorem PartEffect.flushOn {x y : Plumtree ν μ β} {l : List (ν × List μ)}
    (hrec : y.received = x.received) (hmiss : y.missing = x.missing)
    (hihave : y.ihaveFrom = x.ihaveFrom) (hdel : y.delivered = x.delivered)
    (hqueue : ∀ q ∈ y.lazyQueue, q ∈ x.lazyQueue)
    (hl : ∀ p ∈ l, m ∈ p.2 → x.Queues m ∨ x.Passes m i) : PartEffect x i m (y.flushOn l) := by
  cases l with
  | nil => exact .repaired hrec hmiss hihave hdel hqueue (Plumtree.repaired y y.missing.keys)
  | cons p l =>
    apply PartEffect.of_same hrec hmiss hihave hdel hqueue
    · intro q hq hoff
      cases hq
      obtain ⟨p', hp', hm⟩ := hoff
      exact hl p' (List.mem_cons_of_mem _ hp') hm
    · intro q hq hoff
      cases hq
      exact (hl p List.mem_cons_self hoff).imp_right .inl
    · intro q hq hg
      cases hq
      cases hg

theorem PartEffect.tick (x : Plumtree ν μ β) (m : μ) : PartEffect x .tick m x.tick := by
  have hy : PartEffect x .tick m
      (Plumtree.flushOn { x.syncNeighbors with lazyQueue := [] } (byPeer x.lazyQueue).items) := by
    refine PartEffect.flushOn rfl rfl rfl rfl ?_ ?_
    · intro q hq
      cases hq
    · intro p hp hm
      exact .inl ⟨p.1, mem_byPeer (Dict.mem_items.1 hp) hm⟩
  exact hy

theorem PartEffect.handle {x : Plumtree ν μ β} {body : PtBody μ β}
    (h : x.handle src o body = some r) :
    PartEffect x (.message src body) m r := by
  cases body with
  | gossip mid payload =>
    rcases onGossip_spec h with ⟨hnone, order, _, hpush⟩ | ⟨hsome, rfl⟩
    · exact (PartEffect.admitted hnone).push hpush (fun hm => ⟨hm, hnone⟩)
    · refine PartEffect.of_same rfl rfl rfl rfl (fun q hq => hq) ?_ ?_ ?_
      · intro q hq hoff
        cases hq
        cases hoff
      · intro q hq hoff
        cases hq
        cases hoff
      · intro q hq hg
        cases hq
        cases hg
  | ihave ids =>
    cases h
    exact .onIhave x src ids m
  | prune =>
    cases h
    refine PartEffect.of_same rfl rfl rfl rfl (fun q hq => hq) ?_ ?_ ?_
    · intro q hq
      cases hq
    · intro q hq
      cases hq
    · intro q hq
      cases hq
  | graft mid =>
    cases h
    have hout : ∀ q ∈ (x.onGraft src mid).out, q.2.2 = .done ∧
        (∃ payload, q.2.1 = .gossip mid payload) ∧ x.received.get mid ≠ none := by
      intro q hq
      obtain ⟨payload, hget, rfl⟩ := Option.map_eq_some_iff.1 hq
      have hget' : x.received.get mid = some payload := hget
      exact ⟨rfl, ⟨payload, rfl⟩, by rw [hget']; exact Option.some_ne_none _⟩
    refine PartEffect.of_same rfl rfl rfl rfl (fun q hq => hq) ?_ ?_ ?_
    · intro q hq hoff
      rw [(hout q hq).1] at hoff
      cases hoff
    · intro q hq hoff
      obtain ⟨_, ⟨payload, hbody⟩, hrec⟩ := hout q hq
      rw [hbody] at hoff
      cases hoff
      exact .inr (.inr ⟨⟨src, rfl⟩, hrec⟩)
    · intro q hq hg
      obtain ⟨_, ⟨payload, hbody⟩, _⟩ := hout q hq
      rw [hbody] at hg
      cases hg

section
omit [DecidableEq ν]

theorem PartEffect.self (x : Plumtree ν μ β) (i : PtInput ν μ β) (m : μ) :
    PartEffect x i m ⟨x, none⟩ := by
  refine PartEffect.of_same rfl rfl rfl rfl (fun q hq => hq) ?_ ?_ ?_
  · intro q hq
    cases hq
  · intro q hq
    cases hq
  · intro q hq
    cases hq

end

theorem PartEffect.resume {x : Plumtree ν μ β} (h : x.resume o t = some r) :
    PartEffect x (.thread t) m r := by
  cases t with
  | push peers mid payload sender =>
    exact (PartEffect.self x _ m).push h (fun hm => hm)
  | flush byPeer =>
    cases h
    refine PartEffect.flushOn rfl rfl rfl rfl (fun q hq => hq) ?_
    intro p hp hm
    exact .inr ⟨p, hp, hm⟩
  | repair mids =>
    cases h
    exact .repaired rfl rfl rfl rfl (fun q hq => hq) (Plumtree.repaired x mids)
  | done =>
    cases h
    exact .self x _ m

theorem partEffect {x : Plumtree ν μ β} {i : PtInput ν μ β} (h : x.part o i = some r) (m : μ) :
    PartEffect x i m r := by
  cases i with
  | broadcast mid payload =>
    obtain ⟨order, _, hpush⟩ := broadcast_spec h
    exact (PartEffect.started x mid m payload).push hpush (fun hm => hm)
  | message src body => exact .handle (o := o) h
  | thread t => exact .resume (o := o) h
  | tick =>
    cases h
    exact .tick x m

/-- What the part for an input records: a broadcast, or a message with a new id. -/
def recorded (x : Plumtree ν μ β) : PtInput ν μ β → Option (μ × β)
  | .broadcast mid payload => some (mid, payload)
  | .message _ (.gossip mid payload) =>
    if x.received.get mid = none then some (mid, payload) else none
  | _ => none

section
omit [DecidableEq ν]

theorem received_record_congr {x y : Plumtree ν μ β} (hcap : y.cacheCap = x.cacheCap)
    (hrec : y.received = x.received) :
    (y.record mid payload).received = (x.record mid payload).received := by
  cases x
  cases y
  cases hcap
  cases hrec
  unfold record
  dsimp only
  split
  · rfl
  · rfl

end

theorem received_part {x : Plumtree ν μ β} {i : PtInput ν μ β} (h : x.part o i = some r) :
    r.node.received = (x.recorded i).elim x.received (fun q => (x.record q.1 q.2).received) := by
  have hflush : ∀ (y : Plumtree ν μ β) l, (y.flushOn l).node.received = y.received := by
    intro y l
    cases l with
    | nil => exact (repaired y y.missing.keys).received
    | cons p l => rfl
  cases i with
  | broadcast mid payload =>
    obtain ⟨order, _, hpush⟩ := broadcast_spec h
    rw [(pushOn_fields hpush).1]
    change (x.syncNeighbors.record mid payload).received = (x.record mid payload).received
    exact received_record_congr rfl rfl
  | message src body =>
    cases body with
    | gossip mid payload =>
      rcases onGossip_spec h with ⟨hnone, order, _, hpush⟩ | ⟨hsome, rfl⟩
      · rw [(pushOn_fields hpush).1, recorded, if_pos hnone]
        rfl
      · rw [recorded, if_neg hsome]
        rfl
    | ihave ids =>
      cases h
      exact (onIhave_fields x src ids).1
    | prune =>
      cases h
      rfl
    | graft mid =>
      cases h
      rfl
  | thread t =>
    cases t with
    | push peers mid payload sender => exact (pushOn_fields h).1
    | flush l =>
      cases h
      exact hflush x l
    | repair mids =>
      cases h
      exact (repaired x mids).received
    | done =>
      cases h
      rfl
  | tick =>
    cases h
    exact hflush _ _

def evicted (x : Plumtree ν μ β) (mid : μ) (payload : β) : Option μ :=
  if x.cacheCap < (x.received.set mid payload).items.length then
    (x.received.set mid payload).keys.head?
  else none

section
omit [DecidableEq μ]

theorem mem_tail_of_head? {l : List (μ × β)} (h : (m, p) ∈ l)
    (hm : (l.map Prod.fst).head? ≠ some m) : (m, p) ∈ l.tail := by
  cases l with
  | nil => cases h
  | cons q l =>
    rcases List.mem_cons.1 h with rfl | h
    · exact absurd rfl hm
    · exact h

end

section
omit [DecidableEq ν]

theorem get_record {x : Plumtree ν μ β} (h : (x.received.set mid payload).get m = some p)
    (hm : x.evicted mid payload ≠ some m) : (x.record mid payload).received.get m = some p := by
  unfold evicted at hm
  unfold record
  dsimp only
  split
  · rename_i hcap
    rw [if_pos hcap] at hm
    apply Dict.mem_items.1
    exact mem_tail_of_head? (Dict.mem_items.2 h) hm
  · exact h

end

/-- An id that is cached or comes with the input is cached after the part, unless the part forgets
it. -/
theorem received_of_part {x : Plumtree ν μ β} {i : PtInput ν μ β} (h : x.part o i = some r)
    (hm : x.received.get m ≠ none ∨ ∃ src payload, i = .message src (.gossip m payload))
    (hkeep : ∀ q ∈ x.recorded i, x.evicted q.1 q.2 ≠ some m) :
    r.node.received.get m ≠ none := by
  rw [received_part h]
  cases hrec : x.recorded i with
  | none =>
    rcases hm with hm | ⟨src, payload, rfl⟩
    · exact hm
    · rw [recorded] at hrec
      split at hrec
      · cases hrec
      · assumption
  | some q =>
    have hset : ∃ p, (x.received.set q.1 q.2).get m = some p := by
      rw [Dict.get_set]
      split
      · exact ⟨_, rfl⟩
      · rename_i hne
        rcases hm with hm | ⟨src, payload, rfl⟩
        · exact Option.ne_none_iff_exists'.1 hm
        · rw [recorded] at hrec
          split at hrec
          · cases hrec
            exact absurd rfl hne
          · cases hrec
    obtain ⟨p, hp⟩ := hset
    change (x.record q.1 q.2).received.get m ≠ none
    rw [get_record hp (hkeep q hrec)]
    exact Option.some_ne_none _

theorem mem_of_listing {s : Finset ν} (h : listing s order = some l) : p ∈ l ↔ p ∈ s := by
  rw [listing] at h
  split at h
  · rename_i ho
    cases h
    rw [← ho.2, List.mem_toFinset]
  · cases h

theorem nodup_of_listing {s : Finset ν} (h : listing s order = some l) : l.Nodup := by
  rw [listing] at h
  split at h
  · rename_i ho
    cases h
    exact ho.1
  · cases h

theorem listing_toList (s : Finset ν) : listing s s.toList = some s.toList := by
  rw [listing, if_pos ⟨s.nodup_toList, s.toList_toFinset⟩]

section
omit [DecidableEq μ]

theorem exists_pushOn (x : Plumtree ν μ β) (peers : List ν) (mid : μ) (payload : β)
    (sender : Option ν) (eager : List ν) :
    ∃ r, x.pushOn peers mid payload sender ⟨eager, x.lazy.toList⟩ = some r := by
  cases peers with
  | nil =>
    refine ⟨⟨x.lazyPush mid sender x.lazy.toList, none⟩, ?_⟩
    change (listing x.lazy x.lazy.toList).bind _ = _
    rw [listing_toList]
    rfl
  | cons peer peers => exact ⟨_, rfl⟩

end

theorem exists_onGossip {x : Plumtree ν μ β} (hnone : x.received.get mid = none) (src : ν)
    (payload : β) : ∃ o r, x.onGossip src mid payload o = some r ∧
      r.node.delivered = x.delivered ++ [(mid, payload)] := by
  obtain ⟨r, hr⟩ := exists_pushOn (x.admitted src mid payload)
    ((x.admitted src mid payload).eager.toList.filter (fun peer => some peer ≠ some src)) mid
    payload (some src) (x.admitted src mid payload).eager.toList
  refine ⟨⟨(x.admitted src mid payload).eager.toList, (x.admitted src mid payload).lazy.toList⟩,
    r, ?_, (pushOn_fields hr).2.2.2.2.2.1⟩
  rw [onGossip_new hnone, eagerPush, listing_toList]
  exact hr

end Plumtree

end Suprime
