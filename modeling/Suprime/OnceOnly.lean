import Suprime.PlumtreeRuns
import Suprime.Window

namespace Suprime
set_option autoImplicit true

def PtBody.Bears (q : μ × β) : PtBody μ β → Prop
  | .gossip mid payload => (mid, payload) = q
  | _ => False

/-- The handler has still to push the payload of the id. -/
def PtThread.Bears (q : μ × β) : PtThread ν μ β → Prop
  | .push _ mid payload _ => (mid, payload) = q
  | _ => False

def PtInput.Bears (q : μ × β) : PtInput ν μ β → Prop
  | .broadcast mid payload => (mid, payload) = q
  | .message _ body => body.Bears q
  | .thread t => t.Bears q
  | .tick => False

namespace Plumtree

variable {ν μ β : Type} [DecidableEq ν] [DecidableEq μ]

section
omit [DecidableEq ν]

theorem keys_record {x : Plumtree ν μ β} (h : x.received.get mid = none) (payload : β) :
    (x.record mid payload).received.keys = pushFifo x.cacheCap x.received.keys mid := by
  have hnew : mid ∉ x.received.keys := Dict.get_eq_none_iff.1 h
  have hitems : (x.received.set mid payload).items = x.received.items ++ [(mid, payload)] :=
    assocSet_of_not_mem hnew
  have hkeys : (x.received.set mid payload).keys = x.received.keys ++ [mid] := by
    rw [Dict.keys, hitems, List.map_append]
    rfl
  have hlen : (x.received.set mid payload).items.length = (x.received.keys ++ [mid]).length := by
    rw [← hkeys, Dict.keys, List.length_map]
  unfold record pushFifo
  dsimp only
  rw [hlen]
  by_cases hcap : x.cacheCap < (x.received.keys ++ [mid]).length
  · rw [if_pos hcap, if_pos hcap, ← hkeys, Dict.keys, Dict.keys, List.map_tail]
  · rw [if_neg hcap, if_neg hcap]
    exact hkeys

theorem of_get_record {x : Plumtree ν μ β}
    (h : (x.record mid payload).received.get m = some p) :
    (mid, payload) = (m, p) ∨ x.received.get m = some p := by
  have hset : (x.received.set mid payload).get m = some p := by
    unfold record at h
    dsimp only at h
    split at h
    · exact get_of_tail h
    · exact h
  rw [Dict.get_set] at hset
  split at hset
  · rename_i hm
    cases hset
    exact .inl (by rw [hm])
  · exact .inr hset

theorem bears_of_recorded {x : Plumtree ν μ β} {i : PtInput ν μ β}
    (h : x.recorded i = some q) : i.Bears q := by
  cases i with
  | broadcast mid payload => exact Option.some.inj h
  | message src body =>
    cases body with
    | gossip mid payload =>
      rw [recorded] at h
      split at h
      · exact Option.some.inj h
      · cases h
    | ihave ids => cases h
    | prune => cases h
    | graft mid => cases h
  | thread t => cases h
  | tick => cases h

theorem record_cacheCap (x : Plumtree ν μ β) (mid : μ) (payload : β) :
    (x.record mid payload).cacheCap = x.cacheCap := by
  unfold record
  dsimp only
  split
  · rfl
  · rfl

end

theorem repairOn_cacheCap (x : Plumtree ν μ β) (mids : List μ) :
    (x.repairOn mids).node.cacheCap = x.cacheCap := by
  induction mids generalizing x with
  | nil => rfl
  | cons mid mids ih =>
    unfold repairOn
    split
    · exact ih _
    · split
      · rfl
      · split
        · split
          · rfl
          · exact ih _
        · exact ih _

theorem flushOn_cacheCap (x : Plumtree ν μ β) (l : List (ν × List μ)) :
    (x.flushOn l).node.cacheCap = x.cacheCap := by
  cases l with
  | nil => exact repairOn_cacheCap x x.missing.keys
  | cons p l => rfl

theorem onIhave_cacheCap (x : Plumtree ν μ β) (src : ν) (ids : List μ) :
    (x.onIhave src ids).cacheCap = x.cacheCap := by
  unfold onIhave
  induction ids generalizing x with
  | nil => rfl
  | cons mid ids ih =>
    rw [List.foldl_cons, ih]
    unfold hear
    split
    · rfl
    · rfl

section
omit [DecidableEq μ]

theorem pushOn_cacheCap {x : Plumtree ν μ β} {r : PtResult ν μ β}
    (h : x.pushOn peers mid payload sender o = some r) : r.node.cacheCap = x.cacheCap := by
  rcases pushOn_spec h with ⟨_, _, _, rfl⟩ | ⟨_, _, _, rfl⟩
  · rfl
  · rfl

end

/-- A part never changes how many ids are cached. -/
theorem part_cacheCap {x : Plumtree ν μ β} {i : PtInput ν μ β} (h : x.part o i = some r) :
    r.node.cacheCap = x.cacheCap := by
  cases i with
  | broadcast mid payload =>
    obtain ⟨order, _, hpush⟩ := broadcast_spec h
    exact (pushOn_cacheCap hpush).trans (record_cacheCap x.syncNeighbors mid payload)
  | message src body =>
    cases body with
    | gossip mid payload =>
      rcases onGossip_spec h with ⟨_, order, _, hpush⟩ | ⟨_, rfl⟩
      · exact (pushOn_cacheCap hpush).trans (record_cacheCap x mid payload)
      · rfl
    | ihave ids =>
      cases h
      exact onIhave_cacheCap x src ids
    | prune =>
      cases h
      rfl
    | graft mid =>
      cases h
      rfl
  | thread t =>
    cases t with
    | push peers mid payload sender => exact pushOn_cacheCap h
    | flush l =>
      cases h
      exact flushOn_cacheCap x l
    | repair mids =>
      cases h
      exact repairOn_cacheCap x mids
    | done =>
      cases h
      rfl
  | tick =>
    cases h
    exact flushOn_cacheCap _ _

theorem delivered_part {x : Plumtree ν μ β} {i : PtInput ν μ β} (h : x.part o i = some r) :
    r.node.delivered = x.delivered ++ (x.recorded i).toList := by
  have hflush : ∀ (y : Plumtree ν μ β) l, (y.flushOn l).node.delivered = y.delivered := by
    intro y l
    cases l with
    | nil => exact (repaired y y.missing.keys).delivered
    | cons p l => rfl
  cases i with
  | broadcast mid payload =>
    obtain ⟨order, _, hpush⟩ := broadcast_spec h
    exact (pushOn_fields hpush).2.2.2.2.2.1
  | message src body =>
    cases body with
    | gossip mid payload =>
      rcases onGossip_spec h with ⟨hnone, order, _, hpush⟩ | ⟨hsome, rfl⟩
      · rw [recorded, if_pos hnone]
        exact (pushOn_fields hpush).2.2.2.2.2.1
      · rw [recorded, if_neg hsome]
        exact (List.append_nil _).symm
    | ihave ids =>
      cases h
      exact (onIhave_fields x src ids).2.2.1.trans (List.append_nil _).symm
    | prune =>
      cases h
      exact (List.append_nil _).symm
    | graft mid =>
      cases h
      exact (List.append_nil _).symm
  | thread t =>
    cases t with
    | push peers mid payload sender =>
      exact (pushOn_fields h).2.2.2.2.2.1.trans (List.append_nil _).symm
    | flush l =>
      cases h
      exact (hflush x l).trans (List.append_nil _).symm
    | repair mids =>
      cases h
      exact (repaired x mids).delivered.trans (List.append_nil _).symm
    | done =>
      cases h
      exact (List.append_nil _).symm
  | tick =>
    cases h
    exact (hflush _ _).trans (List.append_nil _).symm

theorem not_bears_flushOn (x : Plumtree ν μ β) (l : List (ν × List μ)) (w : μ × β) :
    ∀ q ∈ (x.flushOn l).out, ¬ q.2.1.Bears w ∧ ¬ q.2.2.Bears w := by
  intro q hq
  cases l with
  | nil =>
    obtain ⟨mid, mids, hq2, _⟩ := (repaired x x.missing.keys).out q hq
    rw [hq2]
    exact ⟨fun h => h, fun h => h⟩
  | cons p l =>
    cases hq
    exact ⟨fun h => h, fun h => h⟩

section
omit [DecidableEq μ]

theorem bears_of_pushOn {x : Plumtree ν μ β} {r : PtResult ν μ β}
    (h : x.pushOn peers mid payload sender o = some r) {q : ν × PtBody μ β × PtThread ν μ β}
    (hq : q ∈ r.out) (hw : q.2.1.Bears w ∨ q.2.2.Bears w) : (mid, payload) = w := by
  obtain ⟨hbody, rest, hthread⟩ := (pushOn_fields h).2.2.2.2.2.2.2 q hq
  rw [hbody, hthread] at hw
  rcases hw with hw | hw
  · exact hw
  · exact hw

end

theorem bears_of_part {x : Plumtree ν μ β} {i : PtInput ν μ β} (h : x.part o i = some r)
    {q : ν × PtBody μ β × PtThread ν μ β} (hq : q ∈ r.out)
    (hw : q.2.1.Bears w ∨ q.2.2.Bears w) : x.received.get w.1 = some w.2 ∨ i.Bears w := by
  cases i with
  | broadcast mid payload =>
    obtain ⟨order, _, hpush⟩ := broadcast_spec h
    exact .inr (bears_of_pushOn hpush hq hw)
  | message src body =>
    cases body with
    | gossip mid payload =>
      rcases onGossip_spec h with ⟨_, order, _, hpush⟩ | ⟨_, rfl⟩
      · exact .inr (bears_of_pushOn hpush hq hw)
      · cases hq
        rcases hw with hw | hw
        · cases hw
        · cases hw
    | ihave ids =>
      cases h
      cases hq
    | prune =>
      cases h
      cases hq
    | graft mid =>
      cases h
      obtain ⟨payload, hget, rfl⟩ := Option.map_eq_some_iff.1 hq
      rcases hw with hw | hw
      · cases hw
        exact .inl hget
      · cases hw
  | thread t =>
    cases t with
    | push peers mid payload sender => exact .inr (bears_of_pushOn h hq hw)
    | flush l =>
      cases h
      obtain ⟨hbody, hthread⟩ := not_bears_flushOn x l w q hq
      exact absurd hw (not_or.2 ⟨hbody, hthread⟩)
    | repair mids =>
      cases h
      obtain ⟨mid, rest, hq2, _⟩ := (repaired x mids).out q hq
      rw [hq2] at hw
      rcases hw with hw | hw
      · cases hw
      · cases hw
    | done =>
      cases h
      cases hq
  | tick =>
    cases h
    obtain ⟨hbody, hthread⟩ := not_bears_flushOn _ _ w q hq
    exact absurd hw (not_or.2 ⟨hbody, hthread⟩)

theorem of_get_part {x : Plumtree ν μ β} {i : PtInput ν μ β} (h : x.part o i = some r)
    (hm : r.node.received.get m = some p) : x.received.get m = some p ∨ i.Bears (m, p) := by
  rw [received_part h] at hm
  cases hrec : x.recorded i with
  | none =>
    rw [hrec] at hm
    exact .inl hm
  | some q =>
    rw [hrec] at hm
    rcases of_get_record hm with hq | hm
    · exact .inr (hq ▸ bears_of_recorded hrec)
    · exact .inl hm

/-- The cache holds the last ids that were delivered, and each was new when it was. -/
structure Remembers (x : Plumtree ν μ β) : Prop where
  keys : x.received.keys = (x.delivered.map Prod.fst).rtake x.cacheCap
  spaced : Spaced x.cacheCap (x.delivered.map Prod.fst)

theorem Remembers.part {x : Plumtree ν μ β} {i : PtInput ν μ β} (hx : x.Remembers)
    (h : x.part o i = some r) (hnew : ∀ q ∈ x.recorded i, x.received.get q.1 = none) :
    r.node.Remembers := by
  have hrec := received_part h
  have hdel := delivered_part h
  have hcap := part_cacheCap h
  cases hq : x.recorded i with
  | none =>
    rw [hq] at hrec hdel
    have hdel' : r.node.delivered = x.delivered := hdel.trans (List.append_nil _)
    have hrec' : r.node.received = x.received := hrec
    exact ⟨by rw [hrec', hdel', hcap]; exact hx.keys, by rw [hdel', hcap]; exact hx.spaced⟩
  | some q =>
    have hnone := hnew q hq
    rw [hq] at hrec hdel
    have hrec' : r.node.received = (x.record q.1 q.2).received := hrec
    have hids : r.node.delivered.map Prod.fst = x.delivered.map Prod.fst ++ [q.1] := by
      rw [hdel, List.map_append]
      rfl
    have hout : q.1 ∉ (x.delivered.map Prod.fst).rtake x.cacheCap := by
      rw [← hx.keys]
      exact Dict.get_eq_none_iff.1 hnone
    constructor
    · rw [hids, hcap, hrec', keys_record hnone, hx.keys, pushFifo_rtake]
    · rw [hids, hcap]
      exact hx.spaced.concat hout

end Plumtree

/-- Steps of the swarm on a network that may also duplicate a message in flight. -/
inductive PtNetAction (ν μ β : Type)
  | act (a : PtAction ν μ β)
  | duplicate (i : ℕ)

/-- The id and the payload of the broadcast that an action starts. -/
def PtNetAction.broadcasts : PtNetAction ν μ β → Option (μ × β)
  | .act (.broadcast _ mid payload _) => some (mid, payload)
  | _ => none

namespace PtSwarm

variable {ν μ β : Type} [DecidableEq ν] [DecidableEq μ]

def netStep (s : PtSwarm ν μ β) : PtNetAction ν μ β → Option (PtSwarm ν μ β)
  | .act a => s.step a
  | .duplicate i => do
    let m ← s.inFlight[i]?
    some { s with inFlight := s.inFlight ++ [m] }

/-- Every payload in the swarm is the one of a listed broadcast, whose id is used for no other one,
and every cache remembers what its node has delivered. -/
structure Genuine (cap : ν → ℕ) (B : List (μ × β)) (s : PtSwarm ν μ β) : Prop where
  used : ∀ q ∈ B, q.1 ∈ s.used
  unique : (m, p) ∈ B → (m, p') ∈ B → p = p'
  received : (s.node n).received.get m = some p → (m, p) ∈ B
  delivered : ∀ n, ∀ q ∈ (s.node n).delivered, q ∈ B
  threads : ∀ n, ∀ t ∈ s.threads n, ∀ q, t.Bears q → q ∈ B
  inFlight : ∀ msg ∈ s.inFlight, ∀ q, msg.body.Bears q → q ∈ B
  room : ∀ n, (s.node n).cacheCap = cap n
  remembers : ∀ n, (s.node n).Remembers

section
omit [DecidableEq ν]

theorem genuine_init (neighbors : ν → List ν) (graftTimeout cacheCap : ν → ℕ) :
    Genuine cacheCap [] (init neighbors graftTimeout cacheCap : PtSwarm ν μ β) := by
  constructor
  · intro q hq
    cases hq
  · intro m p p' h
    cases h
  · intro n m p h
    cases h
  · intro n q hq
    cases hq
  · intro n t ht
    cases ht
  · intro msg hmsg
    cases hmsg
  · intro n
    rfl
  · intro n
    exact ⟨(List.rtake_nil _).symm, Spaced.nil _⟩

end

theorem Genuine.bears {s : PtSwarm ν μ β} (hg : Genuine cap B s) (h : Moves s a n o i t)
    (hi : i.Bears q) : q ∈ (PtNetAction.act a).broadcasts.toList ++ B := by
  cases h with
  | broadcast => exact List.mem_append_left _ (List.mem_singleton.2 (Eq.symm hi))
  | deliver hmsg =>
    exact List.mem_append_right _ (hg.inFlight _ (List.mem_of_getElem? hmsg) q hi)
  | @resume n j th o _ ht =>
    exact List.mem_append_right _ (hg.threads n th (List.mem_of_getElem? ht) q hi)
  | tick => cases hi

section
omit [DecidableEq μ]

theorem Moves.fresh {s : PtSwarm ν μ β} (h : Moves s a n o i t)
    (hq : q ∈ (PtNetAction.act a).broadcasts) :
    q.1 ∉ s.used ∧ t.used = s.used ++ [q.1] ∧ i = .broadcast q.1 q.2 := by
  cases h with
  | broadcast _ hmid =>
    cases hq
    exact ⟨hmid, rfl, rfl⟩
  | deliver => cases hq
  | resume => cases hq
  | tick => cases hq

end

theorem Genuine.new {s : PtSwarm ν μ β} (hg : Genuine cap B s) (h : Moves s a n o i t) :
    ∀ q ∈ (s.node n).recorded i, (s.node n).received.get q.1 = none := by
  intro q hq
  cases i with
  | broadcast mid payload =>
    cases hq
    cases h with
    | broadcast _ hmid =>
      cases hget : (s.node n).received.get mid with
      | none => rfl
      | some p => exact absurd (hg.used _ (hg.received hget)) hmid
  | message src body =>
    cases body with
    | gossip mid payload =>
      rw [Plumtree.recorded] at hq
      split at hq
      · cases hq
        assumption
      · cases hq
    | ihave ids => cases hq
    | prune => cases hq
    | graft mid => cases hq
  | thread t => cases hq
  | tick => cases hq

theorem Genuine.ran {s : PtSwarm ν μ β} (hg : Genuine cap B s) (h : Moves s a n o i t)
    (hr : (s.node n).part o i = some r) :
    Genuine cap ((PtNetAction.act a).broadcasts.toList ++ B) (t.ran n r) := by
  obtain ⟨hfl, hth, hnode⟩ := h.sub
  have hnew : ∀ q ∈ B, q ∈ (PtNetAction.act a).broadcasts.toList ++ B :=
    fun q hq => List.mem_append_right _ hq
  have hsent : ∀ q ∈ r.out, ∀ w, q.2.1.Bears w ∨ q.2.2.Bears w →
      w ∈ (PtNetAction.act a).broadcasts.toList ++ B := by
    intro q hq w hw
    rcases Plumtree.bears_of_part hr hq hw with hget | hi
    · exact hnew w (hg.received hget)
    · exact hg.bears h hi
  have hother : ∀ k, k = n ∧ (t.ran n r).node k = r.node ∨ (t.ran n r).node k = s.node k := by
    intro k
    rw [ran_node, hnode]
    by_cases hk : k = n
    · exact .inl ⟨hk, by rw [hk, Function.update_self]⟩
    · exact .inr (Function.update_of_ne hk _ _)
  constructor
  · intro q hq
    rw [(ran_history t n r).1]
    rcases List.mem_append.1 hq with hq | hq
    · rw [(h.fresh (Option.mem_toList.1 hq)).2.1]
      exact List.mem_append_right _ List.mem_cons_self
    · exact h.used _ (hg.used q hq)
  · intro m p p' hp hp'
    rcases List.mem_append.1 hp with hp | hp <;> rcases List.mem_append.1 hp' with hp' | hp'
    · have he := Option.some.inj ((Option.mem_toList.1 hp).symm.trans (Option.mem_toList.1 hp'))
      exact (Prod.mk.inj he).2
    · exact absurd (hg.used _ hp') (h.fresh (Option.mem_toList.1 hp)).1
    · exact absurd (hg.used _ hp) (h.fresh (Option.mem_toList.1 hp')).1
    · exact hg.unique hp hp'
  · intro k m p hget
    rcases hother k with ⟨_, he⟩ | he
    · rw [he] at hget
      rcases Plumtree.of_get_part hr hget with hget | hi
      · exact hnew _ (hg.received hget)
      · exact hg.bears h hi
    · rw [he] at hget
      exact hnew _ (hg.received hget)
  · intro k q hq
    rcases hother k with ⟨_, he⟩ | he
    · rw [he, Plumtree.delivered_part hr] at hq
      rcases List.mem_append.1 hq with hq | hq
      · exact hnew q (hg.delivered n q hq)
      · exact hg.bears h (Plumtree.bears_of_recorded (Option.mem_toList.1 hq))
    · rw [he] at hq
      exact hnew q (hg.delivered k q hq)
  · intro k u hu q hq
    rcases mem_threads_ran hu with hu | ⟨w, hw, rfl⟩
    · exact hnew q (hg.threads k u (hth k u hu) q hq)
    · exact hsent w hw q (.inr hq)
  · intro msg hmsg q hq
    rcases mem_inFlight_ran.1 hmsg with hmsg | ⟨w, hw, rfl⟩
    · exact hnew q (hg.inFlight msg (hfl msg hmsg) q hq)
    · exact hsent w hw q (.inl hq)
  · intro k
    rcases hother k with ⟨rfl, he⟩ | he
    · rw [he]
      exact (Plumtree.part_cacheCap hr).trans (hg.room k)
    · rw [he]
      exact hg.room k
  · intro k
    rcases hother k with ⟨rfl, he⟩ | he
    · rw [he]
      exact (hg.remembers k).part hr (hg.new h)
    · rw [he]
      exact hg.remembers k

theorem Genuine.step {s s' : PtSwarm ν μ β} (hg : Genuine cap B s) (h : s.step a = some s') :
    Genuine cap ((PtNetAction.act a).broadcasts.toList ++ B) s' := by
  rcases step_cases h with ⟨n, o, i, t, r, hmove, hr, rfl⟩ | ⟨j, rfl, rfl⟩ | ⟨n, rfl, rfl⟩ |
    ⟨n, l, rfl, rfl⟩
  · exact hg.ran hmove hr
  · exact ⟨hg.used, hg.unique, hg.received, hg.delivered, hg.threads,
      fun msg hmsg => hg.inFlight msg (List.mem_of_mem_eraseIdx hmsg), hg.room, hg.remembers⟩
  · exact ⟨hg.used, hg.unique, hg.received, hg.delivered, hg.threads, hg.inFlight, hg.room,
      hg.remembers⟩
  · have hsame := s.update_neighbors n l
    refine ⟨hg.used, hg.unique, ?_, ?_, hg.threads, hg.inFlight, ?_, ?_⟩
    · intro k m p hget
      obtain ⟨y, hy⟩ := hsame k
      dsimp only at hget
      rw [hy] at hget
      exact hg.received hget
    · intro k q hq
      obtain ⟨y, hy⟩ := hsame k
      dsimp only at hq
      rw [hy] at hq
      exact hg.delivered k q hq
    · intro k
      obtain ⟨y, hy⟩ := hsame k
      dsimp only
      rw [hy]
      exact hg.room k
    · intro k
      obtain ⟨y, hy⟩ := hsame k
      dsimp only
      rw [hy]
      exact ⟨(hg.remembers k).keys, (hg.remembers k).spaced⟩

theorem Genuine.netStep {s s' : PtSwarm ν μ β} (hg : Genuine cap B s)
    (h : s.netStep a = some s') : Genuine cap (a.broadcasts.toList ++ B) s' := by
  cases a with
  | act a => exact hg.step h
  | duplicate i =>
    obtain ⟨msg, hmsg, h⟩ := Option.bind_eq_some_iff.1 h
    cases h
    refine ⟨hg.used, hg.unique, hg.received, hg.delivered, hg.threads, ?_, hg.room, hg.remembers⟩
    intro m hm
    rcases List.mem_append.1 hm with hm | hm
    · exact hg.inFlight m hm
    · rw [List.mem_singleton.1 hm]
      exact hg.inFlight msg (List.mem_of_getElem? hmsg)

def broadcastsOf (past : List (PtSwarm ν μ β × PtNetAction ν μ β)) : List (μ × β) :=
  past.flatMap (fun p => p.2.broadcasts.toList)

section
omit [DecidableEq ν] [DecidableEq μ]

theorem mem_broadcastsOf {past : List (PtSwarm ν μ β × PtNetAction ν μ β)} :
    (m, p) ∈ broadcastsOf past ↔ ∃ t k o, (t, .act (.broadcast k m p o)) ∈ past := by
  constructor
  · intro h
    obtain ⟨⟨t, a⟩, hmem, ha⟩ := List.mem_flatMap.1 h
    rw [Option.mem_toList] at ha
    cases a with
    | act a =>
      cases a with
      | broadcast k mid payload o =>
        cases ha
        exact ⟨t, k, o, hmem⟩
      | deliver i o => cases ha
      | resume n j o => cases ha
      | tick n => cases ha
      | lose i => cases ha
      | crash n => cases ha
      | setNeighbors n l => cases ha
    | duplicate i => cases ha
  · rintro ⟨t, k, o, hmem⟩
    exact List.mem_flatMap.2 ⟨_, hmem, List.mem_singleton.2 rfl⟩

end

theorem Genuine.of_run {neighbors : ν → List ν} {graftTimeout cacheCap : ν → ℕ}
    {s : PtSwarm ν μ β} (h : Run PtSwarm.netStep (init neighbors graftTimeout cacheCap) past s) :
    Genuine cacheCap (broadcastsOf past) s := by
  induction h with
  | start => exact genuine_init neighbors graftTimeout cacheCap
  | next _ hs ih => exact ih.netStep hs

/-- Every payload that is delivered is the one of the broadcast of its id, and between two
deliveries of an id a node records at least `cache_cap` others. -/
theorem delivers_once_unaltered {ν μ β : Type} [DecidableEq ν] [DecidableEq μ]
    {neighbors : ν → List ν} {graftTimeout cacheCap : ν → ℕ}
    {past : List (PtSwarm ν μ β × PtNetAction ν μ β)} {s : PtSwarm ν μ β}
    (h : Run netStep (init neighbors graftTimeout cacheCap) past s) (n : ν) :
    (∀ m p, (m, p) ∈ (s.node n).delivered →
      (∃ t k o, (t, .act (.broadcast k m p o)) ∈ past) ∧
        ∀ t k p' o, (t, .act (.broadcast k m p' o)) ∈ past → p' = p) ∧
    ∀ m p p' before between after,
      (s.node n).delivered = before ++ (m, p) :: between ++ (m, p') :: after →
        cacheCap n ≤ ((between.map Prod.fst).toFinset.erase m).card := by
  have hg := Genuine.of_run h
  constructor
  · intro m p hm
    have hmem := hg.delivered n _ hm
    refine ⟨mem_broadcastsOf.1 hmem, fun t k p' o hp' => ?_⟩
    exact hg.unique (mem_broadcastsOf.2 ⟨t, k, o, hp'⟩) hmem
  · intro m p p' before between after hsplit
    have hspaced := (hg.remembers n).spaced
    rw [hg.room n, hsplit] at hspaced
    simp only [List.map_append, List.map_cons] at hspaced
    exact hspaced.others

/-- With room for one id, a duplicate is delivered again after one other id. -/
theorem delivers_once_unaltered_of_two : ∃ past s,
    Run netStep (init (fun n => [1 - n]) (fun _ => 2) (fun _ => 1) : PtSwarm (Fin 2) ℕ ℕ) past s ∧
      (s.node 1).delivered = [(5, 50), (6, 60), (5, 50)] ∧
      ∀ t k p o, (t, .act (.broadcast k 5 p o)) ∈ past → p = 50 := by
  obtain ⟨past, s, hr, hs⟩ := exists_run_of_exec netStep
    (init (fun n => [1 - n]) (fun _ => 2) (fun _ => 1) : PtSwarm (Fin 2) ℕ ℕ)
    [.act (.broadcast 0 5 50 ⟨[1], []⟩), .duplicate 0, .act (.deliver 0 ⟨[0], []⟩),
      .act (.broadcast 0 6 60 ⟨[1], []⟩), .act (.deliver 1 ⟨[0], []⟩),
      .act (.deliver 0 ⟨[0], []⟩)]
    (fun s => (s.node 1).delivered) [(5, 50), (6, 60), (5, 50)] (by decide +kernel)
  have hmem : (5, 50) ∈ (s.node 1).delivered := by
    rw [hs]
    exact List.mem_cons_self
  exact ⟨past, s, hr, hs, ((delivers_once_unaltered hr 1).1 5 50 hmem).2⟩

end PtSwarm

end Suprime
