import Suprime.Batch
import Suprime.Membership
import Suprime.PyCodec
import Suprime.PyOperations
import Suprime.WireAuth

namespace Suprime
set_option autoImplicit true

def nodeIdField : PyStr := pyStr ['n', 'o', 'd', 'e', '_', 'i', 'd']
def addressField : PyStr := pyStr ['a', 'd', 'd', 'r', 'e', 's', 's']
def heartbeatField : PyStr := pyStr ['h', 'e', 'a', 'r', 't', 'b', 'e', 'a', 't']
def membershipField : PyStr := pyStr ['m', 'e', 'm', 'b', 'e', 'r', 's', 'h', 'i', 'p']
def storeField : PyStr := pyStr ['s', 't', 'o', 'r', 'e']
def subjectField : PyStr := pyStr ['s', 'u', 'b', 'j', 'e', 'c', 't']
def subjectAddrField : PyStr :=
  pyStr ['s', 'u', 'b', 'j', 'e', 'c', 't', '_', 'a', 'd', 'd', 'r']
def ackToField : PyStr := pyStr ['a', 'c', 'k', '_', 't', 'o']
def ackAddrField : PyStr := pyStr ['a', 'c', 'k', '_', 'a', 'd', 'd', 'r']

namespace MessageType

def JOIN : PyStr := pyStr ['j', 'o', 'i', 'n']
def WELCOME : PyStr := pyStr ['w', 'e', 'l', 'c', 'o', 'm', 'e']
def GOSSIP : PyStr := pyStr ['g', 'o', 's', 's', 'i', 'p']
def PING : PyStr := pyStr ['p', 'i', 'n', 'g']
def PING_REQ : PyStr := pyStr ['p', 'i', 'n', 'g', '_', 'r', 'e', 'q']
def ACK : PyStr := pyStr ['a', 'c', 'k']

end MessageType

/-- A version as it came in: nothing checks the type of its timestamp. -/
structure WireVersion (F : Type) where
  ts : PyValue F
  origin : PyStr

structure WireEntry (F : Type) where
  value : PyValue F
  version : WireVersion F
  deleted : Bool

/-- A store with what it gave to its commit subscribers. Equal keys have one representative. -/
structure WireStore (F : Type) [DecidableEq F] where
  nodeId : PyStr
  data : Dict (PyKey F) (WireEntry F)
  highestTs : PyNum
  commits : List (PyKey F × WireEntry F)

structure WirePeer (F : Type) where
  nodeId : PyKey F
  address : PyValue F
  heartbeat : ℤ
  state : PeerState
  lastUpdate : ℚ

structure WirePeers (F : Type) [DecidableEq F] where
  selfId : PyStr
  peers : Dict (PyKey F) (WirePeer F)

/-- What `merge` of the table is called with. -/
structure WireRecord (F : Type) where
  nodeId : PyKey F
  address : PyValue F
  heartbeat : ℤ

structure WireProbe (F : Type) where
  target : PyKey F
  sentAt : ℚ
  phase : ProbePhase

/-- A node to which anything may be sent. No application handler is registered. -/
structure WireNode (F : Type) [DecidableEq F] where
  id : PyStr
  address : PyStr
  heartbeat : ℤ
  includeStore : Bool
  peers : WirePeers F
  store : WireStore F
  probe : Option (WireProbe F)
  seen : List (PyKey F)
  seenCap : ℕ
  badMessages : ℕ

/-- A message that a node hands to its transport. -/
structure WireSend (F : Type) where
  address : PyValue F
  type : PyStr
  payload : PyValue F
  dst : PyValue F

section
variable {F : Type} [FiniteFloat F] [RationalFloat F] [DecidableEq F] [UnicodeData] [UnicodeDigits]

/-- `(self.ts, self.origin) > (other.ts, other.origin)` -/
def WireVersion.gt (v w : WireVersion F) : Option Bool :=
  if pySame v.ts w.ts then some (decide (w.origin < v.origin)) else pyGt v.ts w.ts

def WireEntry.toDict (e : WireEntry F) : PyValue F :=
  writeItems [(valueField, e.value), (timeField, e.version.ts),
    (originField, .str e.version.origin), (deletedField, .bool e.deleted)]

def WireEntry.fromDict (v : PyValue F) : Option (WireEntry F) := do
  let value ← getField valueField .none v
  let ts ← getItem timeField v
  let origin ← getItem originField v
  let deleted ← getField deletedField (.bool false) v
  some ⟨value, ⟨ts, pyText origin⟩, truthy deleted⟩

namespace WireStore

/-- The last part of `merge_entry`, which tells the subscribers. -/
def commit (s : WireStore F) (key : PyKey F) (e : WireEntry F) : WireStore F :=
  { s with commits := s.commits ++ [(key, e)] }

/-- `merge_entry` from the write on. The entry is in the dict before its timestamp is compared. -/
def write (s : WireStore F) (key : PyKey F) (e : WireEntry F) : Handled (WireStore F) :=
  let s' := { s with data := s.data.set key.number e }
  if e.version.origin = s.nodeId then
    match e.version.ts.toNum with
    | none => ⟨s', true⟩
    | some n =>
      ⟨{ s' with highestTs := if n.gt s.highestTs then n else s.highestTs }.commit key e, false⟩
  else ⟨s'.commit key e, false⟩

def mergeEntry (s : WireStore F) (key : PyKey F) (e : WireEntry F) : Handled (WireStore F) :=
  match s.data.get key.number with
  | none => s.write key e
  | some current =>
    match e.version.gt current.version with
    | none => ⟨s, true⟩
    | some true => s.write key e
    | some false => ⟨s, false⟩

def digest (s : WireStore F) : PyValue F :=
  .dict (s.data.items.map (fun p => (p.1, p.2.toDict)))

end WireStore

def WireRecord.toDict (r : WireRecord F) : PyValue F :=
  writeItems [(nodeIdField, r.nodeId.toValue), (addressField, r.address),
    (heartbeatField, .int r.heartbeat)]

/-- The conversions of `apply_digest`. -/
def WireRecord.ofEntry (v : PyValue F) : Option (WireRecord F) := do
  let nodeId ← getItem nodeIdField v
  let address ← getItem addressField v
  let heartbeat ← getItem heartbeatField v
  let heartbeat ← pyInt heartbeat
  some ⟨.str (pyText nodeId), .str (pyText address), heartbeat⟩

namespace WirePeers

def merge (t : WirePeers F) (clock : ℚ) (r : WireRecord F) : WirePeers F :=
  if r.nodeId = .str t.selfId then t
  else
    match t.peers.get r.nodeId.number with
    | none =>
      { t with
        peers := t.peers.set r.nodeId.number ⟨r.nodeId, r.address, r.heartbeat, .ALIVE, clock⟩ }
    | some existing =>
      if r.heartbeat > existing.heartbeat then
        { t with
          peers := t.peers.set r.nodeId.number { existing with
            heartbeat := r.heartbeat, address := r.address, lastUpdate := clock, state := .ALIVE } }
      else t

def refresh (t : WirePeers F) (clock : ℚ) (nodeId : PyKey F) : WirePeers F :=
  match t.peers.get nodeId.number with
  | none => t
  | some peer =>
    { t with peers := t.peers.set nodeId.number { peer with lastUpdate := clock, state := .ALIVE } }

def digest (t : WirePeers F) : List (PyValue F) :=
  t.peers.values.map (fun p => (⟨p.nodeId, p.address, p.heartbeat⟩ : WireRecord F).toDict)

end WirePeers

/-- One step of the two loops of `GossipService.apply`: a conversion that fails, an entry of the
membership with a reading of the clock, or an entry of the store. -/
inductive WireItem (F : Type)
  | broken
  | member (clock : ℚ) (v : PyValue F)
  | entry (key : PyKey F) (v : PyValue F)

def membershipItems (clock : ℕ → ℚ) (payload : PyValue F) : List (WireItem F) :=
  match (getField membershipField (.list []) payload).bind pyIter with
  | none => [.broken]
  | some l => l.mapIdx (fun i v => .member (clock i) v)

def storeItems (payload : PyValue F) : List (WireItem F) :=
  match (getField storeField (.dict []) payload).bind dictItems with
  | none => [.broken]
  | some l => l.map (fun p => .entry p.1 p.2)

def gossipItems (clock : ℕ → ℚ) (payload : PyValue F) : List (WireItem F) :=
  membershipItems clock payload ++ storeItems payload

/-- What a handler leaves, whether it raised, and what it sent. -/
structure Routed (F : Type) [DecidableEq F] where
  node : WireNode F
  raised : Bool
  sent : List (WireSend F)

namespace WireNode

def init (id : PyStr) : WireNode F :=
  ⟨id, id, 0, true, ⟨id, .empty⟩, ⟨id, .empty, .rat 0, []⟩, none, [], 10000, 0⟩

def applyItem (n : WireNode F) : WireItem F → Handled (WireNode F)
  | .broken => ⟨n, true⟩
  | .member clock v =>
    match WireRecord.ofEntry v with
    | none => ⟨n, true⟩
    | some r => ⟨{ n with peers := n.peers.merge clock r }, false⟩
  | .entry key v =>
    match WireEntry.fromDict v with
    | none => ⟨n, true⟩
    | some e =>
      ⟨{ n with store := (n.store.mergeEntry key e).state }, (n.store.mergeEntry key e).raised⟩

def buildDigest (n : WireNode F) : PyValue F :=
  writeItems [
    (membershipField, .list (n.peers.digest ++
      [(⟨.str n.id, .str n.address, n.heartbeat⟩ : WireRecord F).toDict])),
    (storeField, if n.includeStore then n.store.digest else .dict [])]

def handleGossip (n : WireNode F) (clock : ℕ → ℚ) (m : Message F) : Routed F :=
  let done := runItems applyItem n (gossipItems clock m.payload)
  ⟨done.state, done.raised, []⟩

def handleJoin (n : WireNode F) (clock : ℕ → ℚ) (m : Message F) : Routed F :=
  match getField addressField .none m.payload,
    (getField heartbeatField (.int 0) m.payload).bind pyInt with
  | some address, some heartbeat =>
    if truthy address then
      match m.src.toKey with
      | none => ⟨n, true, []⟩
      | some src =>
        let n' := { n with peers := n.peers.merge (clock 0) ⟨src, address, heartbeat⟩ }
        ⟨n', false, [⟨address, MessageType.WELCOME, n'.buildDigest, m.src⟩]⟩
    else ⟨n, false, []⟩
  | _, _ => ⟨n, true, []⟩

def handlePing (n : WireNode F) (m : Message F) : Routed F :=
  match getField ackAddrField .none m.payload with
  | none => ⟨n, true, []⟩
  | some ackAddr =>
    if truthy ackAddr then
      ⟨n, false, [⟨ackAddr, MessageType.ACK, writeItems [(subjectField, .str n.id)], .none⟩]⟩
    else ⟨n, false, []⟩

def handlePingReq (n : WireNode F) (m : Message F) : Routed F :=
  match getItem subjectField m.payload, getItem subjectAddrField m.payload,
    getItem ackToField m.payload, getItem ackAddrField m.payload with
  | some subject, some subjectAddr, some ackTo, some ackAddr =>
    ⟨n, false, [⟨subjectAddr, MessageType.PING,
      writeItems [(subjectField, subject), (ackToField, ackTo), (ackAddrField, ackAddr)], .none⟩]⟩
  | _, _, _, _ => ⟨n, true, []⟩

def handleAck (n : WireNode F) (clock : ℕ → ℚ) (m : Message F) : Routed F :=
  match getField subjectField .none m.payload with
  | none => ⟨n, true, []⟩
  | some subject =>
    if truthy subject then
      match subject.toKey with
      | none => ⟨n, true, []⟩
      | some subject =>
        ⟨{ n with
            peers := n.peers.refresh (clock 0) subject
            probe := n.probe.filter (fun p => p.target.number ≠ subject.number) }, false, []⟩
    else ⟨n, false, []⟩

/-- `_dispatch_app` without a handler: the type is only looked up. -/
def dispatchApp (n : WireNode F) (m : Message F) : Routed F := ⟨n, m.type.toKey.isNone, []⟩

def route (n : WireNode F) (clock : ℕ → ℚ) (m : Message F) : Routed F :=
  match m.type with
  | .str type =>
    if type = MessageType.GOSSIP then n.handleGossip clock m
    else if type = MessageType.JOIN then n.handleJoin clock m
    else if type = MessageType.WELCOME then n.handleGossip clock m
    else if type = MessageType.PING then n.handlePing m
    else if type = MessageType.PING_REQ then n.handlePingReq m
    else if type = MessageType.ACK then n.handleAck clock m
    else n.dispatchApp m
  | _ => n.dispatchApp m

/-- Remember an id, and forget the oldest one beyond the cap. -/
def remember (n : WireNode F) (id : PyKey F) : WireNode F :=
  { n with
    seen := if (n.seen ++ [id]).length > n.seenCap then (n.seen ++ [id]).tail else n.seen ++ [id] }

/-- `_on_message` after the duplicates are sorted out. An exception is counted. -/
def handle (n : WireNode F) (clock : ℕ → ℚ) (m : Message F) : Routed F :=
  let done := n.route clock m
  if done.raised then
    { done with node := { done.node with badMessages := done.node.badMessages + 1 } }
  else done

/-- `_on_message`. An id that cannot be in a set raises before anything is done. -/
def onMessage (n : WireNode F) (clock : ℕ → ℚ) (m : Message F) : Routed F :=
  match m.id with
  | .none => n.handle clock m
  | id =>
    match id.toKey with
    | none => ⟨n, true, []⟩
    | some id =>
      if id.number ∈ n.seen then ⟨n, false, []⟩ else (n.remember id.number).handle clock m

end WireNode

end

end Suprime
