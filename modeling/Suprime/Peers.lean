import Mathlib.Data.NNRat.Defs
import Mathlib.Data.Rat.Defs
import Mathlib.Algebra.Order.Ring.Rat
import Suprime.Dict
import Suprime.Run

namespace Suprime
set_option autoImplicit true

theorem le_elapsed (x : ℚ) (d : ℚ≥0) : x ≤ x + d := le_add_of_nonneg_right d.2

inductive PeerState
  | ALIVE
  | SUSPECT
  | DEAD
  deriving DecidableEq, Repr

/-- A remote node as seen from the local table; times are exact rationals. -/
structure Peer where
  nodeId : String
  address : String
  heartbeat : ℤ
  state : PeerState
  lastUpdate : ℚ
  deriving DecidableEq

/-- A peer as gossip describes it. -/
structure PeerRecord where
  nodeId : String
  address : String
  heartbeat : ℤ
  deriving DecidableEq

def Peer.toDict (p : Peer) : PeerRecord := ⟨p.nodeId, p.address, p.heartbeat⟩

/-- The membership table; every peer is stored under its own id. -/
structure PeerTable where
  selfId : String
  suspectAfter : ℚ
  deadAfter : ℚ
  peers : Dict String Peer
  keyed : ∀ k p, peers.get k = some p → p.nodeId = k

namespace PeerTable

def init (selfId : String) (suspectAfter deadAfter : ℚ) : PeerTable :=
  ⟨selfId, suspectAfter, deadAfter, .empty, fun _ _ h => by cases h⟩

def get (t : PeerTable) (nodeId : String) : Option Peer := t.peers.get nodeId

def put (t : PeerTable) (p : Peer) : PeerTable :=
  { t with
    peers := t.peers.set p.nodeId p
    keyed := by
      intro k q h
      rw [Dict.get_set] at h
      by_cases hk : k = p.nodeId
      · rw [if_pos hk] at h
        cases h
        exact hk.symm
      · rw [if_neg hk] at h
        exact t.keyed k q h }

def evict (t : PeerTable) (nodeId : String) : PeerTable :=
  { t with
    peers := t.peers.erase nodeId
    keyed := by
      intro k q h
      rw [Dict.get_erase] at h
      by_cases hk : k = nodeId
      · rw [if_pos hk] at h
        cases h
      · rw [if_neg hk] at h
        exact t.keyed k q h }

/-- `merge` of a heartbeat observation, with the reading of the clock that it takes. -/
def merge (t : PeerTable) (clock : ℚ) (e : PeerRecord) : PeerTable × Bool :=
  if e.nodeId = t.selfId then (t, false)
  else
    match t.get e.nodeId with
    | none => (t.put ⟨e.nodeId, e.address, e.heartbeat, .ALIVE, clock⟩, true)
    | some existing =>
      if e.heartbeat > existing.heartbeat then
        (t.put { existing with
          heartbeat := e.heartbeat, address := e.address, lastUpdate := clock, state := .ALIVE },
          true)
      else (t, false)

def refresh (t : PeerTable) (clock : ℚ) (nodeId : String) : PeerTable × Bool :=
  match t.get nodeId with
  | none => (t, false)
  | some peer => (t.put { peer with lastUpdate := clock, state := .ALIVE }, true)

/-- What `tick` does to one peer. -/
def tickPeer (clock : ℚ) (t : PeerTable) (peer : Peer) : PeerTable :=
  let silence := clock - peer.lastUpdate
  if silence ≥ t.deadAfter then t.evict peer.nodeId
  else if silence ≥ t.suspectAfter then t.put { peer with state := .SUSPECT }
  else t

def tick (t : PeerTable) (clock : ℚ) : PeerTable := t.peers.values.foldl (tickPeer clock) t

def all (t : PeerTable) : List Peer := t.peers.values

def alive (t : PeerTable) : List Peer := t.peers.values.filter (fun p => p.state = .ALIVE)

def digest (t : PeerTable) : List PeerRecord := t.peers.values.map Peer.toDict

/-- Whether `merge` takes a record in. -/
def Accepts (t : PeerTable) (e : PeerRecord) : Prop :=
  e.nodeId ≠ t.selfId ∧ ∀ p, t.get e.nodeId = some p → p.heartbeat < e.heartbeat

instance (t : PeerTable) (e : PeerRecord) : Decidable (t.Accepts e) :=
  match h : t.get e.nodeId with
  | none => decidable_of_iff (e.nodeId ≠ t.selfId) (by simp [Accepts, h])
  | some p => decidable_of_iff (e.nodeId ≠ t.selfId ∧ p.heartbeat < e.heartbeat)
      (by simp [Accepts, h])

theorem get_put (t : PeerTable) (p : Peer) (k : String) :
    (t.put p).get k = if k = p.nodeId then some p else t.get k :=
  Dict.get_set _ _ _ _

theorem get_evict (t : PeerTable) (nodeId k : String) :
    (t.evict nodeId).get k = if k = nodeId then none else t.get k :=
  Dict.get_erase _ _ _

theorem merge_of_accepts {t : PeerTable} (clock : ℚ) (h : t.Accepts e) :
    t.merge clock e = (t.put ⟨e.nodeId, e.address, e.heartbeat, .ALIVE, clock⟩, true) := by
  unfold merge
  rw [if_neg h.1]
  cases hk : t.get e.nodeId with
  | none => rfl
  | some p =>
    have hid := t.keyed _ _ hk
    simp [h.2 p hk, hid]

theorem merge_of_not_accepts {t : PeerTable} (clock : ℚ) (h : ¬ t.Accepts e) :
    t.merge clock e = (t, false) := by
  unfold merge
  by_cases hs : e.nodeId = t.selfId
  · rw [if_pos hs]
  · rw [if_neg hs]
    cases hk : t.get e.nodeId with
    | none => exact absurd ⟨hs, fun p hp => by rw [hk] at hp; cases hp⟩ h
    | some p =>
      have hb : ¬ e.heartbeat > p.heartbeat := by
        intro hb
        apply h
        refine ⟨hs, fun q hq => ?_⟩
        rw [hk] at hq
        cases hq
        exact hb
      simp only [if_neg hb]

/-- An accepted record is stored with the time of its acceptance, another changes nothing. -/
theorem get_merge (t : PeerTable) (clock : ℚ) (e : PeerRecord) (k : String) :
    (t.merge clock e).1.get k = if k = e.nodeId ∧ t.Accepts e then
      some ⟨e.nodeId, e.address, e.heartbeat, .ALIVE, clock⟩ else t.get k := by
  by_cases h : t.Accepts e
  · simp [merge_of_accepts clock h, get_put, h]
  · simp [merge_of_not_accepts clock h, h]

theorem get_refresh (t : PeerTable) (clock : ℚ) (nodeId k : String) :
    (t.refresh clock nodeId).1.get k = if k = nodeId then
      (t.get k).map (fun p => { p with lastUpdate := clock, state := .ALIVE }) else t.get k := by
  unfold refresh
  cases hk : t.get nodeId with
  | none =>
    by_cases h : k = nodeId
    · simp [h, hk]
    · simp [h]
  | some p =>
    have hid := t.keyed _ _ hk
    subst hid
    simp only [get_put]
    by_cases h : k = p.nodeId
    · simp [h, hk]
    · simp [h]

/-- The peer after a tick, `none` when it is evicted. -/
def age (t : PeerTable) (clock : ℚ) (p : Peer) : Option Peer :=
  if clock - p.lastUpdate ≥ t.deadAfter then none
  else if clock - p.lastUpdate ≥ t.suspectAfter then some { p with state := .SUSPECT }
  else some p

theorem get_tickPeer {t : PeerTable} (clock : ℚ) (h : t.get p.nodeId = some p) (k : String) :
    (tickPeer clock t p).get k = if k = p.nodeId then t.age clock p else t.get k := by
  unfold tickPeer age
  dsimp only
  split
  · exact get_evict _ _ _
  · split
    · exact get_put _ _ _
    · by_cases hk : k = p.nodeId
      · simp [hk, h]
      · simp [hk]

theorem tickPeer_fields (clock : ℚ) (t : PeerTable) (p : Peer) :
    (tickPeer clock t p).selfId = t.selfId ∧ (tickPeer clock t p).deadAfter = t.deadAfter ∧
      (tickPeer clock t p).suspectAfter = t.suspectAfter := by
  unfold tickPeer
  dsimp only
  split
  · exact ⟨rfl, rfl, rfl⟩
  · split <;> exact ⟨rfl, rfl, rfl⟩

theorem get_foldl_tickPeer {t : PeerTable} {l : List Peer} (clock : ℚ)
    (hl : ∀ p ∈ l, t.get p.nodeId = some p) (hnd : (l.map Peer.nodeId).Nodup) (k : String) :
    (l.foldl (tickPeer clock) t).get k =
      if k ∈ l.map Peer.nodeId then (t.get k).bind (t.age clock) else t.get k := by
  induction l generalizing t with
  | nil => simp
  | cons p l ih =>
    rw [List.map_cons, List.nodup_cons] at hnd
    have hp := hl p List.mem_cons_self
    obtain ⟨_, hdead, hsus⟩ := tickPeer_fields clock t p
    have hage : (tickPeer clock t p).age clock = t.age clock := by
      funext q
      simp only [age, hdead, hsus]
    have hl' : ∀ q ∈ l, (tickPeer clock t p).get q.nodeId = some q := by
      intro q hq
      have hne : q.nodeId ≠ p.nodeId := by
        intro he
        apply hnd.1
        rw [← he]
        exact List.mem_map_of_mem hq
      rw [get_tickPeer clock hp, if_neg hne]
      exact hl q (List.mem_cons_of_mem _ hq)
    rw [List.foldl_cons, ih hl' hnd.2, hage, get_tickPeer clock hp, List.map_cons]
    by_cases hk : k = p.nodeId
    · subst hk
      simp [hnd.1, hp]
    · simp [hk]

theorem get_tick (t : PeerTable) (clock : ℚ) (k : String) :
    (t.tick clock).get k = (t.get k).bind (t.age clock) := by
  have hid : t.peers.values.map Peer.nodeId = t.peers.keys := by
    simp only [Dict.values, Dict.keys, List.map_map]
    apply List.map_congr_left
    intro x hx
    exact t.keyed x.1 x.2 (Dict.mem_items.1 hx)
  have hl : ∀ p ∈ t.peers.values, t.get p.nodeId = some p := by
    intro p hp
    obtain ⟨x, hx, rfl⟩ := List.mem_map.1 hp
    have hget := Dict.mem_items.1 hx
    rw [t.keyed _ _ hget]
    exact hget
  rw [tick, get_foldl_tickPeer clock hl (by rw [hid]; exact t.peers.nodup), hid]
  by_cases hk : k ∈ t.peers.keys
  · rw [if_pos hk]
  · rw [if_neg hk]
    have hnone : t.get k = none := by
      rw [Dict.mem_keys, not_exists] at hk
      exact Option.eq_none_iff_forall_ne_some.2 hk
    rw [hnone, Option.bind_none]

theorem foldl_tickPeer_fields (clock : ℚ) (t : PeerTable) (l : List Peer) :
    (l.foldl (tickPeer clock) t).selfId = t.selfId ∧
      (l.foldl (tickPeer clock) t).deadAfter = t.deadAfter ∧
      (l.foldl (tickPeer clock) t).suspectAfter = t.suspectAfter := by
  induction l generalizing t with
  | nil => exact ⟨rfl, rfl, rfl⟩
  | cons p l ih =>
    obtain ⟨hself, hdead, hsuspect⟩ := tickPeer_fields clock t p
    rw [List.foldl_cons, ← hself, ← hdead, ← hsuspect]
    exact ih _

theorem tick_fields (t : PeerTable) (clock : ℚ) :
    (t.tick clock).selfId = t.selfId ∧ (t.tick clock).deadAfter = t.deadAfter ∧
      (t.tick clock).suspectAfter = t.suspectAfter :=
  foldl_tickPeer_fields clock t _

theorem deadAfter_tick (t : PeerTable) (clock : ℚ) : (t.tick clock).deadAfter = t.deadAfter :=
  (t.tick_fields clock).2.1

theorem of_get_tick {t : PeerTable} {p : Peer} (h : (t.tick clock).get k = some p) :
    ∃ q, t.get k = some q ∧ q.lastUpdate = p.lastUpdate ∧
      clock - p.lastUpdate < t.deadAfter := by
  rw [get_tick] at h
  obtain ⟨q, hq, hp⟩ := Option.bind_eq_some_iff.1 h
  unfold age at hp
  split at hp
  · cases hp
  · rename_i hdead
    split at hp
    · cases hp
      exact ⟨q, hq, rfl, not_le.1 hdead⟩
    · cases hp
      exact ⟨_, hq, rfl, not_le.1 hdead⟩

/-- The heartbeat of a peer that is in both tables does not decrease. -/
def Climbs (t t' : PeerTable) : Prop :=
  ∀ k p q, t.get k = some p → t'.get k = some q → p.heartbeat ≤ q.heartbeat

/-- A table after some calls: it has the same owner, whom it does not hold. -/
structure Evolves (t t' : PeerTable) : Prop where
  selfId : t'.selfId = t.selfId
  owner : t.get t.selfId = none → t'.get t.selfId = none
  climbs : Climbs t t'

/-- A table that has evolved without losing a peer. -/
structure Gains (t t' : PeerTable) : Prop where
  evolves : Evolves t t'
  keeps : ∀ k, (t.get k).isSome → (t'.get k).isSome

theorem Climbs.refl (t : PeerTable) : Climbs t t := by
  intro k p q hp hq
  rw [hp] at hq
  cases hq
  exact le_rfl

theorem Gains.refl (t : PeerTable) : Gains t t := ⟨⟨rfl, id, .refl t⟩, fun _ => id⟩

theorem Gains.trans {t t' t'' : PeerTable} (h : Gains t t') (h' : Gains t' t'') :
    Gains t t'' := by
  refine ⟨⟨h'.evolves.selfId.trans h.evolves.selfId, ?_, ?_⟩, fun k hk => h'.keeps k (h.keeps k hk)⟩
  · intro ho
    have ho' := h.evolves.owner ho
    rw [← h.evolves.selfId] at ho' ⊢
    exact h'.evolves.owner ho'
  · intro k p r hp hr
    obtain ⟨q, hq⟩ := Option.isSome_iff_exists.1 (h.keeps k (by rw [hp]; rfl))
    exact (h.evolves.climbs k p q hp hq).trans (h'.evolves.climbs k q r hq hr)

theorem selfId_merge (t : PeerTable) (clock : ℚ) (e : PeerRecord) :
    (t.merge clock e).1.selfId = t.selfId := by
  by_cases h : t.Accepts e
  · rw [merge_of_accepts clock h]
    rfl
  · rw [merge_of_not_accepts clock h]

theorem gains_merge (t : PeerTable) (clock : ℚ) (e : PeerRecord) :
    Gains t (t.merge clock e).1 := by
  refine ⟨⟨selfId_merge t clock e, ?_, ?_⟩, ?_⟩
  · intro ho
    rw [get_merge, if_neg (fun h => h.2.1 h.1.symm)]
    exact ho
  · intro k p q hp hq
    rw [get_merge] at hq
    split at hq
    · rename_i hacc
      cases hq
      rw [hacc.1] at hp
      exact (hacc.2.2 p hp).le
    · exact Climbs.refl t k p q hp hq
  · intro k hk
    rw [get_merge]
    split
    · rfl
    · exact hk

theorem gains_refresh (t : PeerTable) (clock : ℚ) (nodeId : String) :
    Gains t (t.refresh clock nodeId).1 := by
  have hself : (t.refresh clock nodeId).1.selfId = t.selfId := by
    unfold refresh
    split <;> rfl
  refine ⟨⟨hself, ?_, ?_⟩, ?_⟩
  · intro ho
    rw [get_refresh, ho]
    split <;> rfl
  · intro k p q hp hq
    rw [get_refresh, hp] at hq
    split at hq <;>
    · cases hq
      exact le_rfl
  · intro k hk
    rw [get_refresh]
    split
    · rw [Option.isSome_map]
      exact hk
    · exact hk

theorem evolves_evict (t : PeerTable) (nodeId : String) : Evolves t (t.evict nodeId) := by
  refine ⟨rfl, ?_, ?_⟩
  · intro ho
    rw [get_evict, ho]
    split <;> rfl
  · intro k p q hp hq
    rw [get_evict] at hq
    split at hq
    · cases hq
    · exact Climbs.refl t k p q hp hq

theorem evolves_tick (t : PeerTable) (clock : ℚ) : Evolves t (t.tick clock) := by
  refine ⟨(t.tick_fields clock).1, ?_, ?_⟩
  · intro ho
    rw [get_tick, ho, Option.bind_none]
  · intro k p q hp hq
    rw [get_tick, hp, Option.bind_some, age] at hq
    split at hq
    · cases hq
    · split at hq <;>
      · cases hq
        exact le_rfl

end PeerTable

theorem Run.heartbeat_le {σ : Type u} {ℓ : Type v} {step : σ → ℓ → Option σ}
    {past : List (σ × ℓ)} {s u : σ} (table : σ → PeerTable)
    (hstep : ∀ s a s', step s a = some s' → (table s).Climbs (table s'))
    (h : Run step s past u) (hstays : ∀ v, Visited past u v → ((table v).get k).isSome)
    (hp : (table s).get k = some p) (hq : (table u).get k = some q) :
    p.heartbeat ≤ q.heartbeat := by
  induction h generalizing q with
  | start => exact PeerTable.Climbs.refl _ k p q hp hq
  | @next past v a u hr hs ih =>
    obtain ⟨r, hrk⟩ := Option.isSome_iff_exists.1 (hstays v (.inr ⟨a, List.mem_cons_self⟩))
    exact (ih (fun x hx => hstays x (hx.next a u)) hrk).trans (hstep v a u hs k r q hrk hq)

end Suprime
