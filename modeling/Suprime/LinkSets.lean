import Mathlib.Data.Finset.Lattice.Lemmas
import Suprime.PlumtreeParts

namespace Suprime
set_option autoImplicit true

/-- One node: its service and its handlers that are suspended in a send. -/
structure PtNode (ν μ β : Type) where
  service : Plumtree ν μ β
  threads : List (PtThread ν μ β)

/-- Whatever makes one node act: a broadcast, any message from anyone, a tick, the return of a send
and a change of the neighbours. `raises` tells whether `on_deliver` raises. A PT_GRAFT may lack its
id, which the handler reads late; another message without a field that its handler reads, or with
an id that cannot be hashed, is `malformed`. -/
inductive PtNodeAction (ν μ β : Type)
  | broadcast (mid : μ) (payload : β) (raises : Bool) (o : PtOrders ν)
  | gossip (src : ν) (mid : μ) (payload : β) (raises : Bool) (o : PtOrders ν)
  | ihave (src : ν) (ids : List μ)
  | prune (src : ν)
  | graft (src : ν) (mid : Option μ)
  | malformed
  | tick
  | resume (j : ℕ) (o : PtOrders ν)
  | setNeighbors (neighbors : List ν)

theorem disjoint_move [DecidableEq ν] {s t : Finset ν} (h : Disjoint s t) (a : ν) :
    Disjoint (insert a s) (t.erase a) := by
  rw [Finset.disjoint_insert_left]
  exact ⟨Finset.notMem_erase a t, h.mono_right (Finset.erase_subset a t)⟩

namespace Plumtree

variable {ν μ β : Type} [DecidableEq ν] [DecidableEq μ]

/-- No link is both eager and lazy. -/
def Apart (x : Plumtree ν μ β) : Prop := Disjoint x.eager x.lazy

/-- The sets after `_sync_neighbors` split the neighbours, and a lazy neighbour stays lazy. -/
structure Synced (x y : Plumtree ν μ β) : Prop where
  apart : y.Apart
  union : y.eager ∪ y.lazy = x.neighbors.toFinset
  lazy : ∀ n ∈ x.lazy, n ∈ x.neighbors → n ∈ y.lazy

section
omit [DecidableEq μ]

theorem synced {x : Plumtree ν μ β} (h : x.Apart) : Synced x x.syncNeighbors := by
  have heager : x.syncNeighbors.eager =
      (x.eager ∪ (x.neighbors.toFinset \ (x.eager ∪ x.lazy))) ∩ x.neighbors.toFinset := rfl
  have hlazy : x.syncNeighbors.lazy = x.lazy ∩ x.neighbors.toFinset := rfl
  constructor
  · rw [Apart, heager, hlazy]
    have hnew : Disjoint (x.neighbors.toFinset \ (x.eager ∪ x.lazy)) x.lazy :=
      Finset.sdiff_disjoint.mono_right Finset.subset_union_right
    exact (Finset.disjoint_union_left.2 ⟨h, hnew⟩).mono Finset.inter_subset_left
      Finset.inter_subset_left
  · rw [heager, hlazy]
    ext n
    simp only [Finset.mem_union, Finset.mem_inter, Finset.mem_sdiff]
    tauto
  · intro n hn hmem
    rw [hlazy]
    exact Finset.mem_inter.2 ⟨hn, List.mem_toFinset.2 hmem⟩

end

section
omit [DecidableEq μ] [DecidableEq ν]

theorem Apart.of_eq {x y : Plumtree ν μ β} (h : x.Apart) (he : y.eager = x.eager)
    (hl : y.lazy = x.lazy) : y.Apart := by
  rw [Apart, he, hl]
  exact h

end

section
omit [DecidableEq μ]

theorem Apart.promote {x y : Plumtree ν μ β} (h : x.Apart) {peer : ν}
    (he : y.eager = insert peer x.eager) (hl : y.lazy = x.lazy.erase peer) : y.Apart := by
  rw [Apart, he, hl]
  exact disjoint_move h peer

theorem Apart.demote {x y : Plumtree ν μ β} (h : x.Apart) {peer : ν}
    (he : y.eager = x.eager.erase peer) (hl : y.lazy = insert peer x.lazy) : y.Apart := by
  rw [Apart, he, hl]
  exact (disjoint_move h.symm peer).symm

end

theorem Apart.started {x : Plumtree ν μ β} (h : x.Apart) (mid : μ) (payload : β) :
    (x.started mid payload).Apart := by
  obtain ⟨_, _, _, he, hl, _⟩ := record_fields x.syncNeighbors mid payload
  exact (synced h).apart.of_eq he hl

theorem Apart.admitted {x : Plumtree ν μ β} (h : x.Apart) (src : ν) (mid : μ) (payload : β) :
    (x.admitted src mid payload).Apart :=
  h.promote rfl rfl

section
omit [DecidableEq μ]

theorem Apart.pushOn {x : Plumtree ν μ β} {r : PtResult ν μ β} (h : x.Apart)
    (hpush : x.pushOn peers mid payload sender o = some r) : r.node.Apart := by
  obtain ⟨_, _, _, he, hl, _⟩ := pushOn_fields hpush
  exact h.of_eq he hl

end

theorem Apart.repairOn {x : Plumtree ν μ β} (h : x.Apart) (mids : List μ) :
    (x.repairOn mids).node.Apart := by
  induction mids generalizing x with
  | nil => exact h
  | cons mid mids ih =>
    unfold Plumtree.repairOn
    split
    · exact ih (h.of_eq rfl rfl)
    · split
      · exact h
      · split
        · split
          · exact h.promote rfl rfl
          · exact ih (h.of_eq rfl rfl)
        · exact ih (h.of_eq rfl rfl)

theorem Apart.flushOn {x : Plumtree ν μ β} (h : x.Apart) (l : List (ν × List μ)) :
    (x.flushOn l).node.Apart := by
  cases l with
  | nil => exact h.repairOn x.missing.keys
  | cons p l => exact h

theorem Apart.onGossip {x : Plumtree ν μ β} {r : PtResult ν μ β} (h : x.Apart)
    (hr : x.onGossip src mid payload o = some r) : r.node.Apart := by
  rcases onGossip_spec hr with ⟨_, order, _, hpush⟩ | ⟨_, rfl⟩
  · exact (h.admitted src mid payload).pushOn hpush
  · exact h.demote rfl rfl

theorem Apart.part {x : Plumtree ν μ β} {i : PtInput ν μ β} (h : x.Apart)
    (hr : x.part o i = some r) : r.node.Apart := by
  cases i with
  | broadcast mid payload =>
    obtain ⟨order, _, hpush⟩ := broadcast_spec hr
    exact (h.started mid payload).pushOn hpush
  | message src body =>
    cases body with
    | gossip mid payload => exact h.onGossip hr
    | ihave ids =>
      cases hr
      obtain ⟨_, _, _, he, hl⟩ := onIhave_fields x src ids
      exact h.of_eq he hl
    | prune =>
      cases hr
      exact h.demote rfl rfl
    | graft mid =>
      cases hr
      exact h.promote rfl rfl
  | thread t =>
    cases t with
    | push peers mid payload sender => exact h.pushOn hr
    | flush l =>
      cases hr
      exact h.flushOn l
    | repair mids =>
      cases hr
      exact h.repairOn mids
    | done =>
      cases hr
      exact h
  | tick =>
    cases hr
    have hsync : Apart { x.syncNeighbors with lazyQueue := [] } := (synced h).apart.of_eq rfl rfl
    exact hsync.flushOn _

end Plumtree

namespace PtNode

variable {ν μ β : Type} [DecidableEq ν] [DecidableEq μ]

def init (neighbors : List ν) (graftTimeout cacheCap : ℕ) : PtNode ν μ β :=
  ⟨.init neighbors graftTimeout cacheCap, []⟩

/-- The node ran a part of a handler. -/
def ran (s : PtNode ν μ β) (r : PtResult ν μ β) : PtNode ν μ β :=
  ⟨r.node, s.threads ++ (r.out.map (fun q => q.2.2)).toList⟩

def run (s : PtNode ν μ β) (o : PtOrders ν) (i : PtInput ν μ β) : Option (PtNode ν μ β) :=
  (s.service.part o i).map s.ran

def step (s : PtNode ν μ β) : PtNodeAction ν μ β → Option (PtNode ν μ β)
  | .broadcast mid payload raises o =>
    if raises then some { s with service := s.service.started mid payload }
    else s.run o (.broadcast mid payload)
  | .gossip src mid payload raises o =>
    if raises ∧ s.service.received.get mid = none then
      some { s with service := s.service.admitted src mid payload }
    else s.run o (.message src (.gossip mid payload))
  | .ihave src ids => s.run ⟨[], []⟩ (.message src (.ihave ids))
  | .prune src => s.run ⟨[], []⟩ (.message src .prune)
  | .graft src (some mid) => s.run ⟨[], []⟩ (.message src (.graft mid))
  | .graft src none =>
    some { s with service := { s.service with
      eager := insert src s.service.eager
      lazy := s.service.lazy.erase src } }
  | .malformed => some s
  | .tick => s.run ⟨[], []⟩ .tick
  | .resume j o => do
    let t ← s.threads[j]?
    { s with threads := s.threads.eraseIdx j }.run o (.thread t)
  | .setNeighbors neighbors => some { s with service := { s.service with neighbors } }

theorem apart_run {s s' : PtNode ν μ β} (h : s.service.Apart) (hs : s.run o i = some s') :
    s'.service.Apart := by
  obtain ⟨r, hr, rfl⟩ := Option.map_eq_some_iff.1 hs
  exact h.part hr

theorem apart_step {s s' : PtNode ν μ β} (h : s.service.Apart) (hs : s.step a = some s') :
    s'.service.Apart := by
  cases a with
  | broadcast mid payload raises o =>
    rw [step] at hs
    split at hs
    · cases hs
      exact h.started mid payload
    · exact apart_run h hs
  | gossip src mid payload raises o =>
    rw [step] at hs
    split at hs
    · cases hs
      exact h.admitted src mid payload
    · exact apart_run h hs
  | ihave src ids => exact apart_run h hs
  | prune src => exact apart_run h hs
  | graft src mid =>
    cases mid with
    | some mid => exact apart_run h hs
    | none =>
      cases hs
      exact h.promote rfl rfl
  | malformed =>
    cases hs
    exact h
  | tick => exact apart_run h hs
  | resume j o =>
    obtain ⟨t, _, hs⟩ := Option.bind_eq_some_iff.1 hs
    exact apart_run (s := { s with threads := s.threads.eraseIdx j }) h hs
  | setNeighbors neighbors =>
    cases hs
    exact h.of_eq rfl rfl

/-- Whatever a node receives, no link is both eager and lazy, and after `_sync_neighbors` the two
sets are a partition of the neighbours in which a lazy link that stays is still lazy. -/
theorem links_partition {ν μ β : Type} [DecidableEq ν] [DecidableEq μ] {neighbors : List ν}
    {graftTimeout cacheCap : ℕ} {past : List (PtNode ν μ β × PtNodeAction ν μ β)}
    {s : PtNode ν μ β} (h : Run step (init neighbors graftTimeout cacheCap) past s) :
    Disjoint s.service.eager s.service.lazy ∧
      Disjoint s.service.syncNeighbors.eager s.service.syncNeighbors.lazy ∧
      s.service.syncNeighbors.eager ∪ s.service.syncNeighbors.lazy =
        s.service.neighbors.toFinset ∧
      ∀ n ∈ s.service.lazy, n ∈ s.service.neighbors → n ∈ s.service.syncNeighbors.lazy := by
  have hinit : (init neighbors graftTimeout cacheCap : PtNode ν μ β).service.Apart :=
    Finset.disjoint_empty_left ∅
  have hapart := h.invariant (I := fun s => s.service.Apart) (C := fun _ _ => True)
    (fun _ _ => trivial) hinit (fun _ _ _ hs _ => apart_step hs)
  obtain ⟨hsync, hunion, hlazy⟩ := Plumtree.synced hapart
  exact ⟨hapart, hsync, hunion, hlazy⟩

/-- A stranger prunes and grafts while a broadcast is suspended and the neighbours change. -/
theorem links_partition_of_stranger : ∃ past s,
    Run step (init [1, 2] 2 3 : PtNode ℕ ℕ ℕ) past s ∧ s.service.eager = {1, 2} ∧
      s.service.lazy = {9} ∧
      s.service.syncNeighbors.eager ∪ s.service.syncNeighbors.lazy = {2, 9} := by
  obtain ⟨past, s, hr, hs⟩ := exists_run_of_exec step (init [1, 2] 2 3 : PtNode ℕ ℕ ℕ)
    [.broadcast 7 70 false ⟨[1, 2], []⟩, .prune 9, .graft 9 none, .setNeighbors [2, 9],
      .gossip 9 7 70 true ⟨[], []⟩]
    (fun s => (s.service.eager, s.service.lazy, s.service.neighbors)) ({1, 2}, {9}, [2, 9])
    (by decide +kernel)
  obtain ⟨heager, hrest⟩ := Prod.ext_iff.1 hs
  obtain ⟨hlazy, hneighbors⟩ := Prod.ext_iff.1 hrest
  dsimp only at heager hlazy hneighbors
  refine ⟨past, s, hr, heager, hlazy, (links_partition hr).2.2.1.trans ?_⟩
  rw [hneighbors]
  rfl

end PtNode

end Suprime
