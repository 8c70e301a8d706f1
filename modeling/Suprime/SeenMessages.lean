import Suprime.Run
import Suprime.Window

namespace Suprime
set_option autoImplicit true

/-- A message as `_on_message` looks at it: it may have an id. -/
structure NodeMessage (γ : Type) where
  id : Option String
  content : γ
  deriving DecidableEq

/-- Where a call of `_route` stops: it returns, raises or awaits a send of one of its handlers. -/
inductive RouteEnd (κ : Type)
  | returned
  | raised
  | awaits (call : κ)

/-- What the handlers behind `_route` do with the rest of a node's state, up to their next await. -/
structure Router (ρ γ κ : Type) where
  route : ρ → NodeMessage γ → ρ × RouteEnd κ
  resume : ρ → κ → ρ × RouteEnd κ

/-- A node with its de-duplication cache, the rest of its state and the calls of `_route` that are
suspended. The last field is history: the messages that were routed. -/
structure SwarmNode (ρ γ κ : Type) where
  seenMessages : Finset String
  seenOrder : List String
  seenCap : ℕ
  messagesReceived : ℕ
  badMessages : ℕ
  rest : ρ
  calls : List κ
  routed : List (NodeMessage γ)

/-- A message arrives, or what a suspended call of `_route` awaits is done. -/
inductive RouteAction (γ : Type)
  | receive (m : NodeMessage γ)
  | resume (j : ℕ)

namespace SwarmNode

variable {ρ γ κ : Type}

def init (seenCap : ℕ) (rest : ρ) : SwarmNode ρ γ κ := ⟨∅, [], seenCap, 0, 0, rest, [], []⟩

def remember (n : SwarmNode ρ γ κ) (messageId : String) : SwarmNode ρ γ κ :=
  let n := { n with
    seenMessages := insert messageId n.seenMessages
    seenOrder := n.seenOrder ++ [messageId] }
  if n.seenOrder.length > n.seenCap then
    match n.seenOrder with
    | [] => n
    | oldest :: order =>
      { n with seenMessages := n.seenMessages.erase oldest, seenOrder := order }
  else n

/-- A call of `_route` has run a part. An exception is counted. -/
def ran (n : SwarmNode ρ γ κ) (r : ρ × RouteEnd κ) : SwarmNode ρ γ κ :=
  match r.2 with
  | .returned => { n with rest := r.1 }
  | .raised => { n with rest := r.1, badMessages := n.badMessages + 1 }
  | .awaits call => { n with rest := r.1, calls := n.calls ++ [call] }

/-- `_on_message` after the duplicates are sorted out. -/
def handle (n : SwarmNode ρ γ κ) (router : Router ρ γ κ) (m : NodeMessage γ) :
    SwarmNode ρ γ κ :=
  { n with messagesReceived := n.messagesReceived + 1, routed := n.routed ++ [m] }.ran
    (router.route n.rest m)

def onMessage (n : SwarmNode ρ γ κ) (router : Router ρ γ κ) (m : NodeMessage γ) :
    SwarmNode ρ γ κ :=
  match m.id with
  | none => n.handle router m
  | some mid => if mid ∈ n.seenMessages then n else (n.remember mid).handle router m

def step (router : Router ρ γ κ) (n : SwarmNode ρ γ κ) :
    RouteAction γ → Option (SwarmNode ρ γ κ)
  | .receive m => some (n.onMessage router m)
  | .resume j => do
    let call ← n.calls[j]?
    some ({ n with calls := n.calls.eraseIdx j }.ran (router.resume n.rest call))

/-- The ids of the messages that were routed, in their order. -/
def routedIds (n : SwarmNode ρ γ κ) : List String := n.routed.filterMap NodeMessage.id

/-- The set and the queue hold the last ids that were routed, and each id was new when it was. -/
structure Tracks (n : SwarmNode ρ γ κ) : Prop where
  order : n.seenOrder = n.routedIds.rtake n.seenCap
  messages : n.seenMessages = n.seenOrder.toFinset
  spaced : Spaced n.seenCap n.routedIds

theorem ran_cache (n : SwarmNode ρ γ κ) (r : ρ × RouteEnd κ) :
    (n.ran r).seenMessages = n.seenMessages ∧ (n.ran r).seenOrder = n.seenOrder ∧
      (n.ran r).seenCap = n.seenCap ∧ (n.ran r).routed = n.routed := by
  obtain ⟨rest, stop⟩ := r
  cases stop with
  | returned => exact ⟨rfl, rfl, rfl, rfl⟩
  | raised => exact ⟨rfl, rfl, rfl, rfl⟩
  | awaits call => exact ⟨rfl, rfl, rfl, rfl⟩

theorem Tracks.ran {n : SwarmNode ρ γ κ} (h : n.Tracks) (r : ρ × RouteEnd κ) :
    (n.ran r).Tracks := by
  obtain ⟨hmessages, horder, hcap, hrouted⟩ := ran_cache n r
  have hids : (n.ran r).routedIds = n.routedIds := congrArg (List.filterMap _) hrouted
  constructor
  · rw [horder, hids, hcap]
    exact h.order
  · rw [hmessages, horder]
    exact h.messages
  · rw [hids, hcap]
    exact h.spaced

theorem Tracks.init (cap : ℕ) (rest : ρ) : (init cap rest : SwarmNode ρ γ κ).Tracks :=
  ⟨(List.rtake_nil _).symm, rfl, Spaced.nil cap⟩

theorem Tracks.mem_iff {n : SwarmNode ρ γ κ} (h : n.Tracks) :
    mid ∈ n.seenMessages ↔ mid ∈ lastDistinct n.seenCap n.routedIds := by
  rw [h.messages, List.mem_toFinset, h.order, lastDistinct_of_spaced h.spaced]

theorem Tracks.nodup {n : SwarmNode ρ γ κ} (h : n.Tracks) : n.seenOrder.Nodup :=
  h.order ▸ h.spaced.nodup_rtake

theorem Tracks.notMem_order {n : SwarmNode ρ γ κ} (h : n.Tracks) (hnew : mid ∉ n.seenMessages) :
    mid ∉ n.seenOrder := by
  rw [h.messages, List.mem_toFinset] at hnew
  exact hnew

theorem remember_spec {n : SwarmNode ρ γ κ} (hset : n.seenMessages = n.seenOrder.toFinset)
    (hnd : n.seenOrder.Nodup) (hnew : mid ∉ n.seenOrder) :
    (n.remember mid).seenOrder = pushFifo n.seenCap n.seenOrder mid ∧
      (n.remember mid).seenMessages = (n.remember mid).seenOrder.toFinset ∧
      (n.remember mid).seenCap = n.seenCap ∧ (n.remember mid).routed = n.routed := by
  have hnd' : (n.seenOrder ++ [mid]).Nodup :=
    hnd.append (List.nodup_singleton mid) (List.disjoint_singleton.2 hnew)
  have hset' : insert mid n.seenMessages = (n.seenOrder ++ [mid]).toFinset := by
    rw [hset, List.toFinset_append, Finset.union_comm]
    rfl
  unfold remember pushFifo
  dsimp only
  by_cases hcap : n.seenCap < (n.seenOrder ++ [mid]).length
  · rw [if_pos hcap, if_pos hcap]
    cases hq : n.seenOrder ++ [mid] with
    | nil => exact absurd hq (List.append_ne_nil_of_right_ne_nil _ (List.cons_ne_nil _ _))
    | cons oldest order =>
      rw [hq] at hnd' hset'
      refine ⟨rfl, ?_, rfl, rfl⟩
      dsimp only
      rw [hset', List.toFinset_cons, Finset.erase_insert]
      rw [List.mem_toFinset]
      exact (List.nodup_cons.1 hnd').1
  · rw [if_neg hcap, if_neg hcap]
    exact ⟨rfl, hset', rfl, rfl⟩

theorem Tracks.handle {n : SwarmNode ρ γ κ} (h : n.Tracks) (router : Router ρ γ κ)
    (hid : m.id = none) : (n.handle router m).Tracks := by
  apply Tracks.ran
  have hids : (n.routed ++ [m]).filterMap NodeMessage.id = n.routedIds := by
    rw [List.filterMap_append, List.filterMap_cons_none hid, List.filterMap_nil, List.append_nil]
    rfl
  refine ⟨?_, h.messages, ?_⟩
  · exact h.order.trans (congrArg (·.rtake n.seenCap) hids.symm)
  · change Spaced n.seenCap ((n.routed ++ [m]).filterMap NodeMessage.id)
    rw [hids]
    exact h.spaced

theorem Tracks.remember {n : SwarmNode ρ γ κ} (h : n.Tracks) (router : Router ρ γ κ)
    (hid : m.id = some mid) (hnew : mid ∉ n.seenMessages) :
    ((n.remember mid).handle router m).Tracks := by
  have hout := h.notMem_order hnew
  obtain ⟨horder, hset, hcap, hrouted⟩ := remember_spec h.messages h.nodup hout
  apply Tracks.ran
  have hids : ((n.remember mid).routed ++ [m]).filterMap NodeMessage.id = n.routedIds ++ [mid] := by
    rw [hrouted, List.filterMap_append, List.filterMap_cons_some hid]
    rfl
  refine ⟨?_, hset, ?_⟩
  · change (n.remember mid).seenOrder =
      (((n.remember mid).routed ++ [m]).filterMap NodeMessage.id).rtake (n.remember mid).seenCap
    rw [hids, hcap, horder, ← pushFifo_rtake, ← h.order]
  · change Spaced (n.remember mid).seenCap
      (((n.remember mid).routed ++ [m]).filterMap NodeMessage.id)
    rw [hids, hcap]
    exact h.spaced.concat (h.order ▸ hout)

theorem Tracks.onMessage {n : SwarmNode ρ γ κ} (h : n.Tracks) (router : Router ρ γ κ)
    (m : NodeMessage γ) : (n.onMessage router m).Tracks := by
  unfold SwarmNode.onMessage
  cases hid : m.id with
  | none => exact h.handle router hid
  | some mid =>
    dsimp only
    split
    · exact h
    · rename_i hnew
      exact h.remember router hid hnew

theorem Tracks.step {n n' : SwarmNode ρ γ κ} {router : Router ρ γ κ} (h : n.Tracks)
    (hs : step router n a = some n') : n'.Tracks := by
  cases a with
  | receive m =>
    cases hs
    exact h.onMessage router m
  | resume j =>
    obtain ⟨call, _, hs⟩ := Option.bind_eq_some_iff.1 hs
    cases hs
    have hcalls : { n with calls := n.calls.eraseIdx j }.Tracks :=
      ⟨h.order, h.messages, h.spaced⟩
    exact hcalls.ran _

theorem onMessage_cap (n : SwarmNode ρ γ κ) (router : Router ρ γ κ) (m : NodeMessage γ) :
    (n.onMessage router m).seenCap = n.seenCap := by
  have hremember : ∀ mid, (n.remember mid).seenCap = n.seenCap := by
    intro mid
    unfold SwarmNode.remember
    dsimp only
    split
    · split <;> rfl
    · rfl
  unfold SwarmNode.onMessage
  split
  · exact (ran_cache _ _).2.2.1
  · split
    · rfl
    · exact (ran_cache _ _).2.2.1.trans (hremember _)

theorem seenCap_step {n n' : SwarmNode ρ γ κ} {router : Router ρ γ κ}
    (hs : step router n a = some n') : n'.seenCap = n.seenCap := by
  cases a with
  | receive m =>
    cases hs
    exact onMessage_cap n router m
  | resume j =>
    obtain ⟨call, _, hs⟩ := Option.bind_eq_some_iff.1 hs
    cases hs
    exact (ran_cache _ _).2.2.1

theorem Tracks.of_run {n : SwarmNode ρ γ κ} {router : Router ρ γ κ} {rest : ρ}
    (h : Run (SwarmNode.step router) (.init cap rest) past n) : n.Tracks ∧ n.seenCap = cap :=
  h.invariant (I := fun n => n.Tracks ∧ n.seenCap = cap) (C := fun _ _ => True)
    (fun _ _ => trivial) ⟨.init cap rest, rfl⟩
    (fun _ _ _ hn _ hs => ⟨hn.1.step hs, (seenCap_step hs).trans hn.2⟩)

/-- In every state of a node, the cache holds at most `cap` ids, its set and its queue hold the same
ones without repetition, and a message is routed exactly when its id is not among the last `cap`
distinct ids that were routed. -/
theorem seen_cache_exact {ρ γ κ : Type} {router : Router ρ γ κ} {cap : ℕ} {rest : ρ}
    {past : List (SwarmNode ρ γ κ × RouteAction γ)} {n : SwarmNode ρ γ κ}
    (h : Run (step router) (.init cap rest) past n) :
    n.seenOrder.length ≤ cap ∧ n.seenOrder.Nodup ∧ n.seenMessages = n.seenOrder.toFinset ∧
      ∀ m mid, m.id = some mid →
        ((n.onMessage router m).routed = n.routed ++ [m] ↔
          mid ∉ lastDistinct cap n.routedIds) ∧
        (mid ∈ lastDistinct cap n.routedIds → n.onMessage router m = n) := by
  obtain ⟨ht, hcap⟩ := Tracks.of_run h
  refine ⟨?_, ht.nodup, ht.messages, fun m mid hid => ?_⟩
  · rw [ht.order, ← hcap]
    exact length_rtake_le _ _
  · rw [← hcap, ← ht.mem_iff]
    unfold onMessage
    rw [hid]
    dsimp only
    by_cases hseen : mid ∈ n.seenMessages
    · rw [if_pos hseen]
      refine ⟨iff_of_false ?_ (fun hn => hn hseen), fun _ => rfl⟩
      intro he
      have hlen := congrArg List.length he
      rw [List.length_append, List.length_singleton] at hlen
      omega
    · rw [if_neg hseen]
      refine ⟨iff_of_true ?_ hseen, fun hm => absurd hm hseen⟩
      have hrouted := (remember_spec ht.messages ht.nodup (ht.notMem_order hseen)).2.2.2
      exact (ran_cache _ _).2.2.2.trans (congrArg (· ++ [m]) hrouted)

/-- With room for two ids, a repeat is dropped and the oldest id is routed anew after two others. -/
theorem seen_cache_exact_of_two : ∃ past n,
    Run (step ⟨fun _ _ => ((), .awaits ()), fun _ _ => ((), .returned)⟩)
      (.init 2 () : SwarmNode Unit Unit Unit) past n ∧
    n.routedIds = ["a", "b", "c", "a"] ∧ n.seenOrder.length ≤ 2 := by
  obtain ⟨past, n, hr, hn⟩ := exists_run_of_exec
    (step ⟨fun _ _ => ((), .awaits ()), fun _ _ => ((), .returned)⟩)
    (.init 2 () : SwarmNode Unit Unit Unit)
    [.receive ⟨some "a", ()⟩, .receive ⟨some "b", ()⟩, .resume 0, .receive ⟨some "a", ()⟩,
      .receive ⟨some "c", ()⟩, .receive ⟨some "a", ()⟩]
    routedIds ["a", "b", "c", "a"] (by decide +kernel)
  exact ⟨past, n, hr, hn, (seen_cache_exact hr).1⟩

end SwarmNode

end Suprime
