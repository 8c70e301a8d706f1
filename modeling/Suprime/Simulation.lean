import Mathlib.Data.List.Sort
import Suprime.Membership
import Suprime.Tasks

namespace Suprime
set_option autoImplicit true

namespace Simulation

/-- `random.Random`: a call depends on the state of the generator and on the sizes it is given.
Elements are drawn by their positions. -/
structure PyRandom (ρ : Type) where
  seed : ℤ → ρ
  random : ρ → ℚ × ρ
  choice : ℕ → ρ → ℕ × ρ
  shuffle : ℕ → ρ → List ℕ × ρ
  sample : ℕ → ℕ → ρ → List ℕ × ρ

/-- The elements of a list at some positions. -/
def picked (l : List β) (positions : List ℕ) : List β := positions.filterMap (fun i => l[i]?)

/-- What the seed does not decide: the readings of `time.time` for versions, as many as a run
takes, those for claims, the ids of messages, and the order in which the set of crashed nodes is
enumerated. -/
structure Inputs where
  time : List ℚ
  claimTime : ℕ → ℚ
  messageId : ℕ → String
  order : ℕ → List String → List String
  order_perm : ∀ k l, (order k l).Perm l

structure SimConfig where
  nNodes : ℕ := 5
  seed : ℤ := 0
  steps : ℕ := 200
  dropRate : ℚ := 1 / 20
  maxLatency : ℚ := 2
  partitionProb : ℚ := 1 / 50
  healProb : ℚ := 1 / 5
  crashProb : ℚ := 1 / 100
  restartProb : ℚ := 3 / 10
  dt : ℚ := 1
  deadAfter : ℚ := 1000000000

abbrev StoreDigest (α : Type) := Digest ℚ Str Str (Stored α)

/-- The types of the messages that `_route` handles itself. -/
def MessageType.routed : List String := ["join", "welcome", "gossip", "ping", "ping_req", "ack"]

def AppType : Type := { t : String // t ∉ MessageType.routed }

/-- The payload of a message, by its type. -/
inductive Body (α : Type)
  | JOIN (address : String) (heartbeat : ℤ)
  | WELCOME (membership : List PeerRecord) (store : StoreDigest α)
  | GOSSIP (membership : List PeerRecord) (store : StoreDigest α)
  | PING (subject ackTo ackAddr : String)
  | PING_REQ (subject subjectAddr ackTo ackAddr : String)
  | ACK (subject : String)
  | app (type : AppType) (payload : α)

def Body.type : Body α → String
  | .JOIN .. => "join"
  | .WELCOME .. => "welcome"
  | .GOSSIP .. => "gossip"
  | .PING .. => "ping"
  | .PING_REQ .. => "ping_req"
  | .ACK .. => "ack"
  | .app type _ => type.1

structure SimMessage (α : Type) where
  id : String
  src : String
  body : Body α

/-- An entry of the delivery queue. -/
structure Queued (α : Type) where
  deliverAt : ℚ
  seq : ℕ
  dst : String
  message : SimMessage α

structure SimNetwork (α : Type) where
  transports : List String
  queue : List (Queued α)
  seq : ℕ
  partitions : List (List String)
  dropRate : ℚ
  maxLatency : ℚ
  delivered : ℕ
  dropped : ℕ

def SimNetwork.canReach (net : SimNetwork α) (src dst : String) : Bool :=
  if net.partitions = [] then true
  else if net.partitions.any (fun g => src ∈ g ∧ dst ∈ g) then true
  else !net.partitions.any (fun g => src ∈ g ∨ dst ∈ g)

/-- A node as the simulator builds it: not adaptive, without persistence, hooks or handlers of
application messages. -/
structure SwarmNode (ρ α : Type) where
  id : String
  address : String
  seeds : List String
  fanout : ℕ
  heartbeat : ℤ
  rng : ρ
  peers : PeerTable
  probe : Option Probe
  probeTimeout : ℚ
  indirectK : ℕ
  boost : ℕ
  lastMemberCount : ℕ
  leader : Option String
  store : TaskStore α
  tasks : TaskBoard
  seen : List String
  seenCap : ℕ

/-- What happens in a run, in its order. -/
inductive SimEvent
  | partition (left right : List String)
  | heal
  | crash (nodeId : String)
  | restart (nodeId : String)
  | send (src dst type : String)
  | refuse (src dst type : String)
  | drop (src dst type : String)
  | deliver (src dst type : String)
  deriving DecidableEq

/-- The simulator. The counters say how much of the inputs was used, and the history is what the
run did. -/
structure Simulator (ρ α : Type) where
  cfg : SimConfig
  rng : ρ
  clock : ℚ
  network : SimNetwork α
  nodes : ℕ → SwarmNode ρ α
  built : ℕ
  crashed : List String
  versionReadings : ℕ
  claimReadings : ℕ
  messageIds : ℕ
  enumerations : ℕ
  history : List SimEvent

def addressOf (i : ℕ) : String := "sim-" ++ toString i

def idOf (i : ℕ) : String := "n" ++ toString i

def SwarmNode.init (random : PyRandom ρ) (cfg : SimConfig) (i : ℕ) : SwarmNode ρ α where
  id := idOf i
  address := addressOf i
  seeds := if i = 0 then [] else [addressOf 0]
  fanout := 3
  heartbeat := 0
  rng := random.seed (cfg.seed * 100 + i)
  peers := .init (idOf i) 3 cfg.deadAfter
  probe := none
  probeTimeout := 3 / 2
  indirectK := 2
  boost := 0
  lastMemberCount := 0
  leader := none
  store := .init (idOf i).toList
  tasks := .init (idOf i).toList 3
  seen := []
  seenCap := 10000

namespace SwarmNode

variable {ρ α : Type}

/-- `_remember`: the oldest id goes when there are too many. -/
def remember (n : SwarmNode ρ α) (messageId : String) : SwarmNode ρ α :=
  { n with
    seen := if (n.seen ++ [messageId]).length > n.seenCap then (n.seen ++ [messageId]).tail
      else n.seen ++ [messageId] }

def startTick (n : SwarmNode ρ α) (clock : ℚ) : SwarmNode ρ α :=
  { n with heartbeat := n.heartbeat + 1, peers := n.peers.tick clock }

/-- Gossip harder after a change of the membership. -/
def noteChurn (n : SwarmNode ρ α) : SwarmNode ρ α :=
  if n.peers.all.length = n.lastMemberCount then n
  else { n with boost := max n.boost 3, lastMemberCount := n.peers.all.length }

/-- The smallest id of the node and of some peers. -/
def elect (n : SwarmNode ρ α) (peers : List Peer) : SwarmNode ρ α :=
  { n with leader := some ((peers.map Peer.nodeId).foldl min n.id) }

def updateLeader (n : SwarmNode ρ α) : SwarmNode ρ α := n.elect n.peers.alive

def selectTargets (random : PyRandom ρ) (n : SwarmNode ρ α) : List String × SwarmNode ρ α :=
  let addresses := n.peers.all.map Peer.address
  let n := { n with boost := n.boost - 1 }
  if addresses.length ≤ n.fanout then (addresses, n)
  else
    let (positions, rng) := random.sample addresses.length n.fanout n.rng
    (picked addresses positions, { n with rng })

def membership (n : SwarmNode ρ α) : List PeerRecord :=
  n.peers.digest ++ [⟨n.id, n.address, n.heartbeat⟩]

def apply (n : SwarmNode ρ α) (clock : ℚ) (membership : List PeerRecord)
    (store : StoreDigest α) : SwarmNode ρ α :=
  { n with
    peers := membership.foldl (fun t e => (t.merge clock e).1) n.peers
    store := (n.store.applyDigest store).store }

def handleAck (n : SwarmNode ρ α) (clock : ℚ) (subject : String) : SwarmNode ρ α :=
  { n with
    peers := (n.peers.refresh clock subject).1
    probe := n.probe.filter (fun p => p.target ≠ subject) }

end SwarmNode

/-- Whether a message is lost, `random() < drop_rate`. A rate of zero draws nothing. -/
def drawLoss (random : PyRandom ρ) (rate : ℚ) (rng : ρ) : Bool × ρ :=
  if rate = 0 then (false, rng)
  else
    let (x, rng) := random.random rng
    (decide (x < rate), rng)

def drawLatency (random : PyRandom ρ) (maxLatency : ℚ) (rng : ρ) : ℚ × ρ :=
  if maxLatency = 0 then (0, rng)
  else
    let (x, rng) := random.random rng
    (x * maxLatency, rng)

/-- The calls that drive a simulation: its own methods, and those of an application at node `i`. -/
inductive SimCall (α : Type)
  | step
  | quiesce (rounds : ℕ)
  | set (i : ℕ) (key : Str) (value : Stored α)
  | setLive (key : Str) (value : Stored α)
  | delete (i : ℕ) (key : Str)
  | submit (i : ℕ) (tid kind : Str) (args : α)
  | registerHandler (i : ℕ) (kind : Str)
  | send (i : ℕ) (nodeId : String) (type : AppType) (payload : α)
  | broadcast (i : ℕ) (type : AppType) (payload : α)

namespace Simulator

variable {ρ α : Type}

def setNode (s : Simulator ρ α) (i : ℕ) (n : SwarmNode ρ α) : Simulator ρ α :=
  { s with nodes := Function.update s.nodes i n }

def log (s : Simulator ρ α) (event : SimEvent) : Simulator ρ α :=
  { s with history := s.history ++ [event] }

def live (s : Simulator ρ α) : List ℕ :=
  (List.range s.built).filter (fun i => (s.nodes i).id ∉ s.crashed)

section
variable (random : PyRandom ρ)

/-- `enqueue`. The callers swallow the exception of a refused send. -/
def enqueue (s : Simulator ρ α) (src dst : String) (m : SimMessage α) : Simulator ρ α :=
  if dst ∉ s.network.transports ∨ s.network.canReach src dst = false then
    s.log (.refuse m.src dst m.body.type)
  else
    let (lost, rng) := drawLoss random s.network.dropRate s.rng
    if lost then
      { s with rng, network := { s.network with dropped := s.network.dropped + 1 } }.log
        (.drop m.src dst m.body.type)
    else
      let (latency, rng) := drawLatency random s.network.maxLatency rng
      let item : Queued α := ⟨s.clock + latency, s.network.seq + 1, dst, m⟩
      { s with
        rng
        network := { s.network with
          seq := s.network.seq + 1
          queue := s.network.queue ++ [item] } }.log (.send m.src dst m.body.type)

def sendAll (s : Simulator ρ α) (i : ℕ) (dsts : List String) (m : SimMessage α) :
    Simulator ρ α :=
  dsts.foldl (fun s dst => s.enqueue random (s.nodes i).address dst m) s

variable (inputs : Inputs)

/-- Make a message and send it to some addresses. -/
def post (s : Simulator ρ α) (i : ℕ) (dsts : List String) (body : Body α) : Simulator ρ α :=
  { s with messageIds := s.messageIds + 1 }.sendAll random i dsts
    ⟨inputs.messageId s.messageIds, (s.nodes i).id, body⟩

def bootstrap (s : Simulator ρ α) (i : ℕ) : Simulator ρ α :=
  let n := s.nodes i
  s.post random inputs i n.seeds (.JOIN n.address n.heartbeat)

def sendPing (s : Simulator ρ α) (i : ℕ) (target : String) : Simulator ρ α :=
  let n := s.nodes i
  match n.peers.get target with
  | none => s
  | some peer =>
    (s.setNode i { n with probe := some ⟨target, s.clock, .direct⟩ }).post random inputs i
      [peer.address] (.PING target n.id n.address)

def sendPingReqs (s : Simulator ρ α) (i : ℕ) (target : String) : Simulator ρ α :=
  let n := s.nodes i
  match n.peers.get target with
  | none => s
  | some peer =>
    let helpers := n.peers.alive.filter (fun p => p.nodeId ≠ target)
    if helpers = [] then s
    else
      let (positions, rng) :=
        random.sample helpers.length (min n.indirectK helpers.length) n.rng
      (picked helpers positions).foldl (fun s helper => s.post random inputs i [helper.address]
        (.PING_REQ target peer.address n.id n.address)) (s.setNode i { n with rng })

/-- The part of `_swim_probe` that advances the probe in flight. -/
def advanceProbe (s : Simulator ρ α) (i : ℕ) : Simulator ρ α :=
  let n := s.nodes i
  match n.probe with
  | none => s
  | some probe =>
    if n.peers.get probe.target = none then s.setNode i { n with probe := none }
    else if s.clock - probe.sentAt ≥ n.probeTimeout then
      match probe.phase with
      | .direct =>
        let s := s.sendPingReqs random inputs i probe.target
        s.setNode i { s.nodes i with
          probe := some { probe with phase := .indirect, sentAt := s.clock } }
      | .indirect => s.setNode i { n with probe := none }
    else s

def swimProbe (s : Simulator ρ α) (i : ℕ) : Simulator ρ α :=
  let s := s.advanceProbe random inputs i
  let n := s.nodes i
  if n.probe.isSome ∨ n.peers.all = [] then s
  else
    let (k, rng) := random.choice n.peers.all.length n.rng
    match n.peers.all[k]? with
    | none => s
    | some peer => (s.setNode i { n with rng }).sendPing random inputs i peer.nodeId

/-- Node `i` has made a version for the store that it holds now. -/
def wrote (s : Simulator ρ α) (i : ℕ) (store : TaskStore α) : Simulator ρ α :=
  { s.setNode i { s.nodes i with store } with versionReadings := s.versionReadings + 1 }

/-- `store.set` at a node; `none` where the readings are used up. -/
def write (s : Simulator ρ α) (i : ℕ) (key : Str) (value : Stored α) :
    Option (Simulator ρ α) := do
  let clock ← inputs.time[s.versionReadings]?
  some (s.wrote i ((s.nodes i).store.set key value clock).store)

/-- `store.delete` at a node. Only a key that the store holds takes a version. -/
def erase (s : Simulator ρ α) (i : ℕ) (key : Str) : Option (Simulator ρ α) :=
  match (s.nodes i).store.data.get key with
  | none => some s
  | some _ => do
    let clock ← inputs.time[s.versionReadings]?
    some (s.wrote i ((s.nodes i).store.delete key clock).store)

def maybeClaim (s : Simulator ρ α) (i : ℕ) (task : Task α) : Option (Simulator ρ α) :=
  let n := s.nodes i
  match n.tasks.maybeClaim n.store task (inputs.claimTime s.claimReadings) 0 with
  | none => some s
  | some (key, value) =>
    { s with claimReadings := s.claimReadings + 1 }.write inputs i key value

variable (handler : String → Task α → HandlerOutcome α)

/-- One turn of the loop of `evaluate`. Handlers return without waiting. -/
def evaluateTask (i : ℕ) (s : Simulator ρ α) (task : Task α) : Option (Simulator ρ α) :=
  let n := s.nodes i
  if task.state ≠ .PENDING then some (s.setNode i { n with tasks := n.tasks.forget task.id })
  else if task.kind ∉ n.tasks.handlers then some s
  else do
    let s ← s.maybeClaim inputs i task
    let n := s.nodes i
    let claims ← TaskBoard.claims n.store task.id
    let (tasks, runs) := n.tasks.settle claims task
    let s := s.setNode i { n with tasks }
    if runs then
      s.write inputs i (TASK_PREFIX ++ task.id)
        (.task (task.ended n.tasks.nodeId (handler n.id task)))
    else some s

def evaluate (s : Simulator ρ α) (i : ℕ) : Option (Simulator ρ α) := do
  let tasks ← TaskBoard.tasks (s.nodes i).store
  tasks.foldlM (evaluateTask inputs handler i) s

def gossipOnce (s : Simulator ρ α) (i : ℕ) : Simulator ρ α :=
  let (targets, n) := (s.nodes i).selectTargets random
  let s := s.setNode i n
  if targets = [] then s
  else s.post random inputs i targets (.GOSSIP n.membership n.store.digest)

/-- `tick` of a node; `none` where the board raises because it cannot read a task or a claim. -/
def tick (s : Simulator ρ α) (i : ℕ) : Option (Simulator ρ α) := do
  let s := s.setNode i ((s.nodes i).startTick s.clock)
  let s := if (s.nodes i).seeds ≠ [] ∧ (s.nodes i).peers.all = [] then
    s.bootstrap random inputs i else s
  let s := s.swimProbe random inputs i
  let s := s.setNode i (s.nodes i).noteChurn
  let s := s.setNode i (s.nodes i).updateLeader
  let s ← s.evaluate inputs handler i
  some (s.gossipOnce random inputs i)

/-- `_route` -/
def route (s : Simulator ρ α) (i : ℕ) (m : SimMessage α) : Simulator ρ α :=
  let n := s.nodes i
  match m.body with
  | .GOSSIP membership store => s.setNode i (n.apply s.clock membership store)
  | .WELCOME membership store => s.setNode i (n.apply s.clock membership store)
  | .JOIN address heartbeat =>
    if address = "" then s
    else
      let n := { n with peers := (n.peers.merge s.clock ⟨m.src, address, heartbeat⟩).1 }
      (s.setNode i n).post random inputs i [address] (.WELCOME n.membership n.store.digest)
  | .PING _ _ ackAddr =>
    if ackAddr = "" then s else s.post random inputs i [ackAddr] (.ACK n.id)
  | .PING_REQ subject subjectAddr ackTo ackAddr =>
    s.post random inputs i [subjectAddr] (.PING subject ackTo ackAddr)
  | .ACK subject => if subject = "" then s else s.setNode i (n.handleAck s.clock subject)
  | .app _ _ => s

def onMessage (s : Simulator ρ α) (i : ℕ) (m : SimMessage α) : Simulator ρ α :=
  if m.id ∈ (s.nodes i).seen then s
  else (s.setNode i ((s.nodes i).remember m.id)).route random inputs i m

def deliver (s : Simulator ρ α) (item : Queued α) : Simulator ρ α :=
  match (List.range s.built).find? (fun i => (s.nodes i).address = item.dst) with
  | none => s
  | some i =>
    ({ s with network := { s.network with delivered := s.network.delivered + 1 } }.log
      (.deliver item.message.src item.dst item.message.body.type)).onMessage random inputs i
      item.message

/-- `flush_due` and the tasks that it starts, which run in their order. -/
def flushDue (s : Simulator ρ α) : Simulator ρ α :=
  let due := s.network.queue.filter (fun item => item.deliverAt ≤ s.clock)
  let keep := s.network.queue.filter (fun item => ¬ item.deliverAt ≤ s.clock)
  let (positions, rng) := random.shuffle due.length s.rng
  ((picked due positions).insertionSort (fun x y => x.deliverAt ≤ y.deliverAt)).foldl
    (deliver random inputs) { s with rng, network := { s.network with queue := keep } }

/-- The first part of `_maybe_fault`: the network is cut in two or healed. -/
def cutOrHeal (s : Simulator ρ α) : Simulator ρ α :=
  let (x, rng) := random.random s.rng
  if x < s.cfg.partitionProb then
    let (positions, rng) := random.shuffle s.built rng
    let shuffled := picked ((List.range s.built).map addressOf) positions
    let left := shuffled.take (s.built / 2)
    let right := shuffled.drop (s.built / 2)
    { s with rng, network := { s.network with partitions := [left, right] } }.log
      (.partition left right)
  else
    let (y, rng) := random.random rng
    if y < s.cfg.healProb then
      { s with rng, network := { s.network with partitions := [] } }.log .heal
    else { s with rng }

def crash (s : Simulator ρ α) : Simulator ρ α :=
  let (x, rng) := random.random s.rng
  if x < s.cfg.crashProb ∧ s.live.length > 2 then
    let (k, rng) := random.choice s.live.length rng
    match s.live[k]? with
    | none => s
    | some victim =>
      { s with rng, crashed := s.crashed ++ [(s.nodes victim).id] }.log
        (.crash (s.nodes victim).id)
  else { s with rng }

/-- A crashed node is chosen from the list of the set. -/
def restart (s : Simulator ρ α) : Simulator ρ α :=
  if s.crashed = [] then s
  else
    let (x, rng) := random.random s.rng
    if x < s.cfg.restartProb then
      let (k, rng) := random.choice s.crashed.length rng
      match (inputs.order s.enumerations s.crashed)[k]? with
      | none => s
      | some reborn =>
        { s with
          rng
          crashed := s.crashed.erase reborn
          enumerations := s.enumerations + 1 }.log (.restart reborn)
    else { s with rng }

def maybeFault (s : Simulator ρ α) : Simulator ρ α :=
  ((s.cutOrHeal random).crash random).restart random inputs

def step (s : Simulator ρ α) : Option (Simulator ρ α) := do
  let s := { s with clock := s.clock + s.cfg.dt }.maybeFault random inputs
  let s ← s.live.foldlM (tick random inputs handler) s
  some (s.flushDue random inputs)

def quiesceRound (s : Simulator ρ α) : Option (Simulator ρ α) := do
  let s := { s with clock := s.clock + s.cfg.dt }
  let s ← (List.range s.built).foldlM (tick random inputs handler) s
  some (s.flushDue random inputs)

/-- Heal everything and run the rounds of `quiesce` that are left. -/
def quiesce (s : Simulator ρ α) : ℕ → Option (Simulator ρ α)
  | 0 => some s
  | rounds + 1 => do
    let s ← s.quiesceRound random inputs handler
    s.quiesce rounds

def calm (s : Simulator ρ α) : Simulator ρ α :=
  { s with
    network := { s.network with partitions := [], dropRate := 0, maxLatency := 0 }
    crashed := [] }

/-- A call of the application at node `i`, which must exist. -/
def call [PyNone α] (s : Simulator ρ α) : SimCall α → Option (Simulator ρ α)
  | .step => s.step random inputs handler
  | .quiesce rounds => s.calm.quiesce random inputs handler rounds
  | .set i key value => if i < s.built then s.write inputs i key value else none
  | .setLive key value =>
    let (k, rng) := random.choice s.live.length s.rng
    (s.live[k]?).bind (fun i => { s with rng }.write inputs i key value)
  | .delete i key => if i < s.built then s.erase inputs i key else none
  | .submit i tid kind args =>
    if i < s.built then
      s.write inputs i (TASK_PREFIX ++ tid)
        (.task (TaskBoard.newTask (s.nodes i).tasks.nodeId tid kind args))
    else none
  | .registerHandler i kind =>
    let n := s.nodes i
    if i < s.built then
      some (s.setNode i { n with tasks := { n.tasks with handlers := kind :: n.tasks.handlers } })
    else none
  | .send i nodeId type payload =>
    if i < s.built then
      match (s.nodes i).peers.get nodeId with
      | none => some s
      | some peer => some (s.post random inputs i [peer.address] (.app type payload))
    else none
  | .broadcast i type payload =>
    if i < s.built then
      some (s.post random inputs i ((s.nodes i).peers.all.map Peer.address) (.app type payload))
    else none

/-- The simulator before `build`. -/
def init (cfg : SimConfig) : Simulator ρ α where
  cfg := cfg
  rng := random.seed cfg.seed
  clock := 0
  network := ⟨[], [], 0, [], cfg.dropRate, cfg.maxLatency, 0, 0⟩
  nodes := .init random cfg
  built := 0
  crashed := []
  versionReadings := 0
  claimReadings := 0
  messageIds := 0
  enumerations := 0
  history := []

def start (s : Simulator ρ α) (i : ℕ) : Simulator ρ α :=
  let s := { s with network := { s.network with
    transports := s.network.transports ++ [(s.nodes i).address] } }
  let s := s.setNode i ((s.nodes i).elect (s.nodes i).peers.all)
  let s := if (s.nodes i).seeds = [] then s else s.bootstrap random inputs i
  { s with built := i + 1 }

def build (cfg : SimConfig) : Simulator ρ α :=
  let s := (List.range cfg.nNodes).foldl (start random inputs) (init random cfg)
  ((s.flushDue random inputs).flushDue random inputs).flushDue random inputs

/-- The simulator is built and then called. -/
def driven [PyNone α] (cfg : SimConfig) (calls : List (SimCall α)) : Option (Simulator ρ α) :=
  calls.foldlM (call random inputs handler) (build random inputs cfg)

def run [PyNone α] (cfg : SimConfig) : Option (Simulator ρ α) :=
  driven random inputs handler cfg (List.replicate cfg.steps .step)

end

end Simulator

end Simulation

end Suprime
