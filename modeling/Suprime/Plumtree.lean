import Mathlib.Data.Finset.Basic
import Mathlib.Data.Finset.SDiff
import Suprime.Dict
import Suprime.Run

namespace Suprime
set_option autoImplicit true

/-- The payloads of PT_GOSSIP, PT_IHAVE, PT_PRUNE and PT_GRAFT. -/
inductive PtBody (μ β : Type)
  | gossip (mid : μ) (payload : β)
  | ihave (ids : List μ)
  | prune
  | graft (mid : μ)
  deriving DecidableEq

structure PtMessage (ν μ β : Type) where
  src : ν
  dst : ν
  body : PtBody μ β
  deriving DecidableEq

/-- What a handler that is suspended in a send has still to do: the rest of `_eager_push` and then
`_lazy_push`, the rest of the announcements of `_tick` and then its repairs, the rest of the
repairs, or nothing. -/
inductive PtThread (ν μ β : Type)
  | push (peers : List ν) (mid : μ) (payload : β) (sender : Option ν)
  | flush (byPeer : List (ν × List μ))
  | repair (mids : List μ)
  | done

/-- The orders in which a step lists the eager and the lazy set. -/
structure PtOrders (ν : Type) where
  eager : List ν
  lazy : List ν

/-- The broadcast service of one node. The last field is history: the calls of `on_deliver`. -/
structure Plumtree (ν μ β : Type) where
  neighbors : List ν
  graftTimeout : ℕ
  cacheCap : ℕ
  eager : Finset ν
  lazy : Finset ν
  received : Dict μ β
  missing : Dict μ ℕ
  ihaveFrom : Dict μ (List ν)
  lazyQueue : List (ν × μ)
  delivered : List (μ × β)

/-- A part of a handler: the service after it and the send in which it is suspended, with what is
left to do. -/
structure PtResult (ν μ β : Type) where
  node : Plumtree ν μ β
  out : Option (ν × PtBody μ β × PtThread ν μ β)

namespace Plumtree

variable {ν μ β : Type} [DecidableEq ν] [DecidableEq μ]

def init (neighbors : List ν) (graftTimeout cacheCap : ℕ) : Plumtree ν μ β :=
  ⟨neighbors, graftTimeout, cacheCap, ∅, ∅, .empty, .empty, .empty, [], []⟩

/-- `_record`, which forgets the oldest id when there are more than `cache_cap`. -/
def record (x : Plumtree ν μ β) (mid : μ) (payload : β) : Plumtree ν μ β :=
  let received := x.received.set mid payload
  if x.cacheCap < received.items.length then
    { x with
      received := ⟨received.items.tail, (List.tail_sublist _).map _ |>.nodup received.nodup⟩ }
  else { x with received }

def deliver (x : Plumtree ν μ β) (mid : μ) (payload : β) : Plumtree ν μ β :=
  { x with delivered := x.delivered ++ [(mid, payload)] }

def syncNeighbors (x : Plumtree ν μ β) : Plumtree ν μ β :=
  let current := x.neighbors.toFinset
  { x with
    eager := (x.eager ∪ (current \ (x.eager ∪ x.lazy))) ∩ current
    lazy := x.lazy ∩ current }

/-- `list(s)` of a set in the given order. -/
def listing (s : Finset ν) (order : List ν) : Option (List ν) :=
  if order.Nodup ∧ order.toFinset = s then some order else none

def lazyPush (x : Plumtree ν μ β) (mid : μ) (sender : Option ν) (order : List ν) :
    Plumtree ν μ β :=
  { x with lazyQueue := x.lazyQueue ++
      (order.filter (fun peer => some peer ≠ sender)).map (fun peer => (peer, mid)) }

/-- `_eager_push` from a peer on, and `_lazy_push` after it. -/
def pushOn (x : Plumtree ν μ β) (peers : List ν) (mid : μ) (payload : β) (sender : Option ν)
    (o : PtOrders ν) : Option (PtResult ν μ β) :=
  match peers with
  | [] => do
    let order ← listing x.lazy o.lazy
    some ⟨x.lazyPush mid sender order, none⟩
  | peer :: peers => some ⟨x, some (peer, .gossip mid payload, .push peers mid payload sender)⟩

def eagerPush (x : Plumtree ν μ β) (mid : μ) (payload : β) (sender : Option ν)
    (o : PtOrders ν) : Option (PtResult ν μ β) := do
  let order ← listing x.eager o.eager
  x.pushOn (order.filter (fun peer => some peer ≠ sender)) mid payload sender o

def broadcast (x : Plumtree ν μ β) (mid : μ) (payload : β) (o : PtOrders ν) :
    Option (PtResult ν μ β) :=
  ((x.syncNeighbors.record mid payload).deliver mid payload).eagerPush mid payload none o

def onGossip (x : Plumtree ν μ β) (src : ν) (mid : μ) (payload : β) (o : PtOrders ν) :
    Option (PtResult ν μ β) :=
  if x.received.get mid = none then
    let x := x.record mid payload
    let x := { x with
      missing := x.missing.erase mid
      ihaveFrom := x.ihaveFrom.erase mid
      eager := insert src x.eager
      lazy := x.lazy.erase src }
    (x.deliver mid payload).eagerPush mid payload (some src) o
  else
    some ⟨{ x with eager := x.eager.erase src, lazy := insert src x.lazy },
      some (src, .prune, .done)⟩

def onPrune (x : Plumtree ν μ β) (src : ν) : Plumtree ν μ β :=
  { x with eager := x.eager.erase src, lazy := insert src x.lazy }

/-- What `_on_ihave` does for one id. -/
def hear (src : ν) (x : Plumtree ν μ β) (mid : μ) : Plumtree ν μ β :=
  if x.received.get mid = none then
    let heard := (x.ihaveFrom.get mid).getD []
    { x with
      missing := x.missing.setDefault mid 0
      ihaveFrom := x.ihaveFrom.set mid (if src ∈ heard then heard else heard ++ [src]) }
  else x

def onIhave (x : Plumtree ν μ β) (src : ν) (ids : List μ) : Plumtree ν μ β :=
  ids.foldl (hear src) x

def onGraft (x : Plumtree ν μ β) (src : ν) (mid : μ) : PtResult ν μ β :=
  let x := { x with eager := insert src x.eager, lazy := x.lazy.erase src }
  ⟨x, (x.received.get mid).map (fun payload => (src, .gossip mid payload, .done))⟩

/-- The repairs of `_tick` from an id on, to the next graft. It raises at an id that is neither
missing nor received any more. -/
def repairOn (x : Plumtree ν μ β) : List μ → PtResult ν μ β
  | [] => ⟨x, none⟩
  | mid :: mids =>
    if x.received.get mid ≠ none then { x with missing := x.missing.erase mid }.repairOn mids
    else match x.missing.get mid with
      | none => ⟨x, none⟩
      | some waited =>
        match (x.ihaveFrom.get mid).getD [] with
        | peer :: candidates =>
          if x.graftTimeout ≤ waited + 1 then
            ⟨{ x with
                ihaveFrom := x.ihaveFrom.set mid candidates
                eager := insert peer x.eager
                lazy := x.lazy.erase peer
                missing := x.missing.set mid 0 },
              some (peer, .graft mid, .repair mids)⟩
          else { x with missing := x.missing.set mid (waited + 1) }.repairOn mids
        | [] => { x with missing := x.missing.set mid (waited + 1) }.repairOn mids

/-- The announcements of `_tick` from a peer on, and its repairs after them. -/
def flushOn (x : Plumtree ν μ β) : List (ν × List μ) → PtResult ν μ β
  | [] => x.repairOn x.missing.keys
  | (peer, ids) :: byPeer => ⟨x, some (peer, .ihave ids, .flush byPeer)⟩

def byPeer (queue : List (ν × μ)) : Dict ν (List μ) :=
  queue.foldl (fun d p => d.set p.1 ((d.get p.1).getD [] ++ [p.2])) .empty

def tick (x : Plumtree ν μ β) : PtResult ν μ β :=
  let x := x.syncNeighbors
  { x with lazyQueue := [] }.flushOn (byPeer x.lazyQueue).items

def handle (x : Plumtree ν μ β) (src : ν) (o : PtOrders ν) :
    PtBody μ β → Option (PtResult ν μ β)
  | .gossip mid payload => x.onGossip src mid payload o
  | .ihave ids => some ⟨x.onIhave src ids, none⟩
  | .prune => some ⟨x.onPrune src, none⟩
  | .graft mid => some (x.onGraft src mid)

def resume (x : Plumtree ν μ β) (o : PtOrders ν) : PtThread ν μ β → Option (PtResult ν μ β)
  | .push peers mid payload sender => x.pushOn peers mid payload sender o
  | .flush byPeer => some (x.flushOn byPeer)
  | .repair mids => some (x.repairOn mids)
  | .done => some ⟨x, none⟩

end Plumtree

/-- Services of any number of nodes, their suspended handlers and the messages in flight. The last
three fields are history: the ids of all broadcasts, all messages sent, and who announced which id
to whom. -/
structure PtSwarm (ν μ β : Type) where
  node : ν → Plumtree ν μ β
  threads : ν → List (PtThread ν μ β)
  inFlight : List (PtMessage ν μ β)
  crashed : List ν
  used : List μ
  sent : List (PtMessage ν μ β)
  announced : List (ν × ν × μ)

/-- Broadcasts with a fresh id, deliveries of the `i`-th message in flight, returns of the send of
the `j`-th suspended handler, ticks, losses, crashes and changes of the neighbours. -/
inductive PtAction (ν μ β : Type)
  | broadcast (n : ν) (mid : μ) (payload : β) (o : PtOrders ν)
  | deliver (i : ℕ) (o : PtOrders ν)
  | resume (n : ν) (j : ℕ) (o : PtOrders ν)
  | tick (n : ν)
  | lose (i : ℕ)
  | crash (n : ν)
  | setNeighbors (n : ν) (neighbors : List ν)

namespace PtSwarm

variable {ν μ β : Type} [DecidableEq ν] [DecidableEq μ]

def init (neighbors : ν → List ν) (graftTimeout cacheCap : ν → ℕ) : PtSwarm ν μ β :=
  ⟨fun n => .init (neighbors n) (graftTimeout n) (cacheCap n), fun _ => [], [], [], [], [], []⟩

/-- Node `n` ran a part of a handler. -/
def ran (s : PtSwarm ν μ β) (n : ν) (r : PtResult ν μ β) : PtSwarm ν μ β :=
  match r.out with
  | none => { s with node := Function.update s.node n r.node }
  | some (peer, body, thread) =>
    { s with
      node := Function.update s.node n r.node
      threads := Function.update s.threads n (s.threads n ++ [thread])
      inFlight := s.inFlight ++ [⟨n, peer, body⟩]
      sent := s.sent ++ [⟨n, peer, body⟩] }

def announces (m : PtMessage ν μ β) : List (ν × ν × μ) :=
  match m.body with
  | .ihave ids => ids.map (fun mid => (m.src, m.dst, mid))
  | _ => []

def step (s : PtSwarm ν μ β) : PtAction ν μ β → Option (PtSwarm ν μ β)
  | .broadcast n mid payload o =>
    if n ∈ s.crashed ∨ mid ∈ s.used then none
    else do
      let r ← (s.node n).broadcast mid payload o
      some ({ s with used := s.used ++ [mid] }.ran n r)
  | .deliver i o => do
    let m ← s.inFlight[i]?
    if m.dst ∈ s.crashed then none
    else do
      let r ← (s.node m.dst).handle m.src o m.body
      some ({ s with
        inFlight := s.inFlight.eraseIdx i
        announced := s.announced ++ announces m }.ran m.dst r)
  | .resume n j o =>
    if n ∈ s.crashed then none
    else do
      let t ← (s.threads n)[j]?
      let r ← (s.node n).resume o t
      some ({ s with
        threads := Function.update s.threads n ((s.threads n).eraseIdx j) }.ran n r)
  | .tick n => if n ∈ s.crashed then none else some (s.ran n (s.node n).tick)
  | .lose i => do
    let _ ← s.inFlight[i]?
    some { s with inFlight := s.inFlight.eraseIdx i }
  | .crash n => some { s with crashed := n :: s.crashed }
  | .setNeighbors n neighbors =>
    some { s with node := Function.update s.node n { s.node n with neighbors } }

end PtSwarm

end Suprime
