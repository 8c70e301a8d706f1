import Suprime.Run
import Suprime.KvStore

namespace Suprime
set_option autoImplicit true

/-- The messages of the quorum API. -/
inductive KvBody (ν α : Type)
  | READ_REQ (req : ReqId ν) (key : Str)
  | READ_RESP (req : ReqId ν) (entry : Option (EntryData ℚ ν (KvValue α)))
  | WRITE_REQ (req : ReqId ν) (key : Str) (entry : EntryData ℚ ν (KvValue α))
  | WRITE_RESP (req : ReqId ν)

/-- The request that a message makes or answers. -/
def KvBody.req : KvBody ν α → ReqId ν
  | .READ_REQ req _ => req
  | .READ_RESP req _ => req
  | .WRITE_REQ req _ _ => req
  | .WRITE_RESP req => req

structure KvMessage (ν α : Type) where
  src : ν
  dst : ν
  body : KvBody ν α

/-- A call of `quorum_put`, with the entry it wrote, or of `quorum_get` that has not returned:
the peers in `targets` have not been sent its request yet. -/
structure KvCall (ν α : Type) where
  inst : ℕ
  req : ReqId ν
  key : Str
  targets : List ν
  wrote : Option (Entry ℚ ν (KvValue α))

/-- A node: its store, its `KVStore`s in the order of their creation, the ids of the messages it
remembers, the messages it is handling with the number of the next handler, its calls and the
number of the next request. -/
structure KvNode (ν α : Type) where
  store : NodeStore ν α
  kvs : List (KVStore ν α)
  seen : List ℕ
  inbox : List (ℕ × ℕ)
  calls : List (KvCall ν α)
  nextReq : ℕ

/-- What a call of `quorum_put` wrote and returned. -/
structure PutReturn (ν α : Type) where
  key : Str
  entry : Entry ℚ ν (KvValue α)
  count : ℕ
  deriving DecidableEq

/-- The nodes, every message sent (a message's position is its id) and every digest built. The
last three fields are history: the messages each node has taken in, every local write, and what
the calls of `quorum_put` have returned. -/
structure KvSwarm (ν α : Type) where
  node : ν → KvNode ν α
  sent : List (KvMessage ν α)
  digests : List (Digest ℚ ν Str (KvValue α))
  delivered : ν → List ℕ
  written : List (Str × Entry ℚ ν (KvValue α))
  returned : List (PutReturn ν α)

/-- Steps of node `n`; `j` is one of its `KVStore`s and `clock` gives the readings that the store
takes. -/
inductive KvAction (ν α : Type)
  | create (n : ν) (nspace : Str)
  | put (n : ν) (j : ℕ) (key : Str) (value : KvValue α) (ttl : Option ℚ) (now : ℚ) (clock : ℕ → ℚ)
  | get (n : ν) (j : ℕ) (key : Str) (now : ℚ) (clock : ℕ → ℚ)
  | delete (n : ν) (j : ℕ) (key : Str) (clock : ℕ → ℚ)
  | sweepExpired (n : ν) (j : ℕ) (now : ℚ) (clock : ℕ → ℚ)
  | createIndex (n : ν) (j : ℕ) (name : Str) (extractor : KvValue α → Str) (now : ℚ)
      (clock : ℕ → ℚ)
  | quorumPut (n : ν) (j : ℕ) (key : Str) (value : KvValue α) (w : ℤ) (ttl : Option ℚ)
      (peers : List ν) (now : ℚ) (clock : ℕ → ℚ)
  | quorumGet (n : ν) (j : ℕ) (key : Str) (r : ℤ) (peers : List ν)
  | send (n : ν) (c : ℕ)
  | finish (n : ν) (c : ℕ)
  | deliver (n : ν) (i : ℕ)
  | handle (n : ν) (t : ℕ)
  | digest (n : ν)
  | mergeEntry (n : ν) (i : ℕ) (key : Str)
  | applyDigest (n : ν) (i : ℕ)

/-- The newest of the collected answers, the first one among equals. -/
def bestOf [LinearOrder ν] :
    List (ν × Option (EntryData ℚ ν (KvValue α))) → Option (Entry ℚ ν (KvValue α))
  | l => l.foldl (fun best p =>
      match p.2 with
      | none => best
      | some data => some (newer Entry.version best (Entry.fromDict data))) none

namespace KvNode

variable {ν α : Type}

def init [LinearOrder ν] (n : ν) : KvNode ν α := ⟨.init n, [], [], [], [], 0⟩

/-- `_remember`: the ids of the last `cap` messages. -/
def remember (nd : KvNode ν α) (cap i : ℕ) : List ℕ :=
  if (nd.seen ++ [i]).length > cap then (nd.seen ++ [i]).tail else nd.seen ++ [i]

def setKv (nd : KvNode ν α) (j : ℕ) (kv : KVStore ν α) : KvNode ν α :=
  { nd with kvs := nd.kvs.set j kv }

def setPending [DecidableEq ν] (nd : KvNode ν α) (j : ℕ) (kv : KVStore ν α) (req : ReqId ν)
    (p : Pending ν α) : KvNode ν α :=
  nd.setKv j { kv with pending := kv.pending.set req p }

/-- The handlers of the `j`-th `KVStore`: the node after a message and what it sends. -/
def onMessage [LinearOrder ν] (nd : KvNode ν α) (n : ν) (j : ℕ) (kv : KVStore ν α)
    (msg : KvMessage ν α) : KvNode ν α × List (KvMessage ν α) :=
  match msg.body with
  | .WRITE_REQ req key entry =>
    ({ nd with store := (nd.store.mergeEntry key (Entry.fromDict entry)).store },
      [⟨n, msg.src, .WRITE_RESP req⟩])
  | .WRITE_RESP req =>
    match kv.pending.get req with
    | some (.acks a) => (nd.setPending j kv req (.acks (a + 1)), [])
    | _ => (nd, [])
  | .READ_REQ req key =>
    (nd, [⟨n, msg.src, .READ_RESP req ((nd.store.data.get key).map Entry.toDict)⟩])
  | .READ_RESP req entry =>
    match kv.pending.get req with
    | some (.responses l) => (nd.setPending j kv req (.responses (l ++ [(msg.src, entry)])), [])
    | _ => (nd, [])

/-- What a call has collected: the acknowledgements or the answers. -/
def pendingOf [DecidableEq ν] (nd : KvNode ν α) (call : KvCall ν α) : Option (Pending ν α) := do
  let kv ← nd.kvs[call.inst]?
  kv.pending.get call.req

/-- The number that `quorum_put` returns. -/
def ackCount [DecidableEq ν] (nd : KvNode ν α) (call : KvCall ν α) : ℕ :=
  match nd.pendingOf call with
  | some (.acks a) => 1 + a
  | _ => 1

def collected [DecidableEq ν] (nd : KvNode ν α) (call : KvCall ν α) :
    List (ν × Option (EntryData ℚ ν (KvValue α))) :=
  match nd.pendingOf call with
  | some (.responses l) => l
  | _ => []

/-- What `quorum_get` returns. -/
def answer [LinearOrder ν] (nd : KvNode ν α) (call : KvCall ν α) : KvValue α :=
  match bestOf (nd.collected call) with
  | none => .none
  | some best => if best.deleted then .none else best.value

/-- The store after the read repair of `quorum_get`. -/
def repaired [LinearOrder ν] (nd : KvNode ν α) (call : KvCall ν α) : NodeStore ν α :=
  match bestOf (nd.collected call) with
  | none => nd.store
  | some best => (nd.store.mergeEntry call.key best).store

def forget [DecidableEq ν] (nd : KvNode ν α) (c : ℕ) (call : KvCall ν α) : KvNode ν α :=
  { nd with
    calls := nd.calls.eraseIdx c
    kvs := nd.kvs.modify call.inst (fun kv => { kv with pending := kv.pending.erase call.req }) }

end KvNode

/-- How many message ids a node remembers. -/
def seenCap : ℕ := 10000

namespace KvSwarm

variable {ν α : Type} [LinearOrder ν] [DecidableEq α]

def init : KvSwarm ν α := ⟨fun n => .init n, [], [], fun _ => [], [], []⟩

def setNode (s : KvSwarm ν α) (n : ν) (nd : KvNode ν α) : KvSwarm ν α :=
  { s with node := Function.update s.node n nd }

/-- Node `n` makes local writes. -/
def write (s : KvSwarm ν α) (n : ν) (ws : List (LocalWrite α)) (clock : ℕ → ℚ) : KvSwarm ν α :=
  let r := (s.node n).store.applyWrites clock ws
  { s.setNode n { s.node n with store := r.1 } with written := s.written ++ r.2 }

/-- A new call of node `n` with what it has collected at its start. -/
def call (s : KvSwarm ν α) (n : ν) (kv : KVStore ν α) (c : KvCall ν α) (p : Pending ν α) :
    KvSwarm ν α :=
  let nd := s.node n
  s.setNode n { nd.setPending c.inst kv c.req p with
    calls := nd.calls ++ [c]
    nextReq := nd.nextReq + 1 }

/-- The request that a call sends to each of its targets. -/
def request (n m : ν) (c : KvCall ν α) : KvMessage ν α :=
  match c.wrote with
  | some e => ⟨n, m, .WRITE_REQ c.req c.key e.toDict⟩
  | none => ⟨n, m, .READ_REQ c.req c.key⟩

def finish (s : KvSwarm ν α) (n : ν) (c : ℕ) (call : KvCall ν α) : KvSwarm ν α :=
  let nd := s.node n
  match call.wrote with
  | some e => { s.setNode n (nd.forget c call) with
      returned := s.returned ++ [⟨call.key, e, nd.ackCount call⟩] }
  | none => s.setNode n { nd.forget c call with store := nd.repaired call }

/-- Steps of the swarm. A call may stop waiting at any time after its requests are sent, because
its timeout may run out. -/
def step (s : KvSwarm ν α) : KvAction ν α → Option (KvSwarm ν α)
  | .create n nspace =>
    some (s.setNode n { s.node n with kvs := (s.node n).kvs ++ [.init nspace] })
  | .put n j key value ttl now clock => do
    let kv ← (s.node n).kvs[j]?
    some (s.write n (kv.put (s.node n).store key value ttl now clock) clock)
  | .get n j key now clock => do
    let kv ← (s.node n).kvs[j]?
    some (s.write n (kv.get (s.node n).store key now clock) clock)
  | .delete n j key clock => do
    let kv ← (s.node n).kvs[j]?
    some (s.write n (kv.delete (s.node n).store key clock) clock)
  | .sweepExpired n j now clock => do
    let kv ← (s.node n).kvs[j]?
    some (s.write n (kv.sweepExpired (s.node n).store now clock) clock)
  | .createIndex n j name extractor now clock => do
    let kv ← (s.node n).kvs[j]?
    let kv' := { kv with indexes := kv.indexes.set name extractor }
    let s' := s.setNode n ((s.node n).setKv j kv')
    some (s'.write n (kv'.createIndex (s.node n).store name extractor now) clock)
  | .quorumPut n j key value w ttl peers now clock => do
    let kv ← (s.node n).kvs[j]?
    if peers.Nodup ∧ n ∉ peers then
      let st := (s.node n).store
      let s' := s.write n (kv.quorumPutWrites st key value ttl now) clock
      some (s'.call n kv ⟨j, (n, (s.node n).nextReq), kv.k key,
        peers.take (w - 1).toNat, some (kv.quorumPutEntry st key value clock)⟩ (.acks 0))
    else none
  | .quorumGet n j key r peers => do
    let kv ← (s.node n).kvs[j]?
    if peers.Nodup ∧ n ∉ peers then
      some (s.call n kv ⟨j, (n, (s.node n).nextReq), kv.k key, peers.take (r - 1).toNat, none⟩
        (.responses [(n, ((s.node n).store.data.get (kv.k key)).map Entry.toDict)]))
    else none
  | .send n c => do
    let call ← (s.node n).calls[c]?
    match call.targets with
    | [] => none
    | m :: ms =>
      let nd := { s.node n with calls := (s.node n).calls.set c { call with targets := ms } }
      some { s.setNode n nd with sent := s.sent ++ [request n m call] }
  | .finish n c => do
    let call ← (s.node n).calls[c]?
    if call.targets = [] then some (s.finish n c call) else none
  | .deliver n i => do
    let msg ← s.sent[i]?
    if msg.dst = n then
      if i ∈ (s.node n).seen then some s
      else
        let nd := s.node n
        some { s.setNode n { nd with
            seen := nd.remember seenCap i, inbox := nd.inbox ++ [(i, 0)] } with
          delivered := Function.update s.delivered n (s.delivered n ++ [i]) }
    else none
  | .handle n t => do
    let (i, j) ← (s.node n).inbox[t]?
    let msg ← s.sent[i]?
    let kv ← (s.node n).kvs[j]?
    let (nd, out) := (s.node n).onMessage n j kv msg
    some { s.setNode n { nd with inbox := nd.inbox.set t (i, j + 1) } with sent := s.sent ++ out }
  | .digest n => some { s with digests := s.digests ++ [(s.node n).store.digest] }
  | .mergeEntry n i key => do
    let d ← s.digests[i]?
    let x ← d.get key
    let st := ((s.node n).store.mergeEntry key (Entry.fromDict x)).store
    some (s.setNode n { s.node n with store := st })
  | .applyDigest n i => do
    let d ← s.digests[i]?
    some (s.setNode n { s.node n with store := ((s.node n).store.applyDigest d).store })

end KvSwarm

end Suprime
