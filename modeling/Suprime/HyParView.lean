import Mathlib.Data.Finset.Card
import Mathlib.Data.Finset.Basic
import Mathlib.Data.Int.Basic
import Suprime.Dict
import Suprime.Run

namespace Suprime
set_option autoImplicit true

/-- Python's truth value of ids and addresses. -/
class Truthy (α : Type) where
  truthy : α → Bool

/-- The messages of the overlay. An id is `none` if it is not hashable, and so is a pair of a
shuffle that cannot be unpacked or whose id is not hashable. A message without a field that its
handler reads first, or whose `ttl` or pairs cannot be converted, is `malformed`, and so is a
shuffle or a reply to one whose sender has an id that is not hashable and would be recorded. -/
inductive HpvMessage (ν A : Type)
  | join (nodeId : Option ν) (address : A)
  | forwardJoin (src nodeId : Option ν) (address : A) (ttl : ℤ)
  | neighbor (nodeId : Option ν) (address : A) (high : Bool)
  | neighborReply (nodeId : Option ν) (address : A) (accepted : Bool)
  | disconnect (nodeId : Option ν)
  | shuffle (src origin : Option ν) (originAddr : A) (nodes : List (Option (ν × A))) (ttl : ℤ)
  | shuffleReply (nodeId : Option ν) (address : A) (nodes : Option (List (Option (ν × A))))
  | malformed

/-- What a handler does after `_add_active` or after a send. -/
inductive HpvNext (ν A : Type)
  | done
  | joined (nid : ν) (address : A)
  | spread (nid : ν) (address : A) (size : Option ℕ)
  | neighbor (nid : ν)
  | reply (nid : ν) (accept : Bool)

/-- A handler that is suspended in a send: the one of `_drop_random_active`, the one of the loop of
`_tick`, the one before `_integrate`, or another one. -/
inductive HpvPending (ν A : Type)
  | addActive (nid : ν) (next : HpvNext ν A)
  | tick (candidate : ν)
  | integrate (nodes : List (Option (ν × A)))
  | send (next : HpvNext ν A)

/-- What the random generator and the iteration over a set yield during one step. -/
structure Draws (ν : Type) where
  picks : List ν
  sample : List ν
  peer : Option ν

/-- The views of one node, its suspended handlers, and what it has sent. -/
structure HyParView (ν A : Type) where
  id : ν
  address : A
  activeSize : ℕ
  passiveSize : ℕ
  arwl : ℤ
  prwl : ℤ
  shuffleTtl : ℤ
  active : Finset ν
  passive : Finset ν
  book : Dict ν A
  pending : List (HpvPending ν A)
  sent : List (A × HpvMessage ν A)

namespace HyParView

variable {ν A : Type} [DecidableEq ν] [Truthy ν] [Truthy A]

def init (id : ν) (address : A) (activeSize passiveSize : ℕ) (arwl prwl shuffleTtl : ℤ) :
    HyParView ν A :=
  ⟨id, address, activeSize, passiveSize, arwl, prwl, shuffleTtl, ∅, ∅, .empty, [], []⟩

def record (h : HyParView ν A) (nodeId : ν) (address : A) : HyParView ν A :=
  if Truthy.truthy nodeId ∧ Truthy.truthy address ∧ nodeId ≠ h.id then
    { h with book := h.book.set nodeId address }
  else h

def addr (h : HyParView ν A) (nodeId : ν) : Option A := h.book.get nodeId

/-- The handler is suspended in a send to a node, which is skipped if its address is unknown. -/
def sendThen (h : HyParView ν A) (nodeId : ν) (m : HpvMessage ν A) (p : HpvPending ν A) :
    HyParView ν A :=
  { h with
    sent := h.sent ++ ((h.addr nodeId).map (fun a => (a, m))).toList
    pending := h.pending ++ [p] }

/-- `rng.choice` of a set. -/
def choose (pool : Finset ν) : List ν → Option (ν × List ν)
  | [] => none
  | c :: picks => if c ∈ pool then some (c, picks) else none

def addPassive (h : HyParView ν A) (nodeId : ν) (picks : List ν) :
    Option (HyParView ν A × List ν) :=
  if nodeId = h.id ∨ nodeId ∈ h.active ∨ nodeId ∈ h.passive then some (h, picks)
  else if h.addr nodeId = none then some (h, picks)
  else if h.passiveSize ≤ h.passive.card then do
    let (c, picks) ← choose h.passive picks
    some ({ h with passive := insert nodeId (h.passive.erase c) }, picks)
  else some ({ h with passive := insert nodeId h.passive }, picks)

/-- The rest of a handler up to its next send. An iteration over the active view raises when the
size of the view has changed. -/
def proceed (h : HyParView ν A) (next : HpvNext ν A) (d : Draws ν) : Option (HyParView ν A) :=
  match next with
  | .done => some h
  | .joined nid address => some (h.sendThen nid (.neighbor (some h.id) h.address true)
      (.send (.spread nid address none)))
  | .spread nid address size =>
    if size.any (· ≠ h.active.card) then some h
    else match d.peer with
      | none => some h
      | some peer =>
        if peer ∈ h.active ∧ peer ≠ nid then
          some (h.sendThen peer (.forwardJoin (some h.id) (some nid) address h.arwl)
            (.send (.spread nid address (some h.active.card))))
        else none
  | .neighbor nid => some (h.sendThen nid (.neighbor (some h.id) h.address true) (.send .done))
  | .reply nid accept =>
    some (h.sendThen nid (.neighborReply (some h.id) h.address accept) (.send .done))

/-- `_drop_random_active` of a view that is not empty, in which the handler is suspended. -/
def dropRandomActive (h : HyParView ν A) (p : HpvPending ν A) (d : Draws ν) :
    Option (HyParView ν A) := do
  let (victim, picks) ← choose h.active d.picks
  let (h, _) ← { h with active := h.active.erase victim }.addPassive victim picks
  some (h.sendThen victim (.disconnect (some h.id)) p)

/-- `_add_active` and what follows it. -/
def addActive (h : HyParView ν A) (nodeId : ν) (next : HpvNext ν A) (d : Draws ν) :
    Option (HyParView ν A) :=
  if nodeId = h.id ∨ nodeId ∈ h.active then h.proceed next d
  else if h.addr nodeId = none then h.proceed next d
  else
    let h := { h with passive := h.passive.erase nodeId }
    if h.activeSize ≤ h.active.card ∧ h.active ≠ ∅ then
      h.dropRandomActive (.addActive nodeId next) d
    else { h with active := insert nodeId h.active }.proceed next d

def onJoin (h : HyParView ν A) (nid : ν) (address : A) (d : Draws ν) : Option (HyParView ν A) :=
  (h.record nid address).addActive nid (.joined nid address) d

/-- A walk deposits the node in the passive view on its way. -/
def deposit (h : HyParView ν A) (nid : ν) (ttl : ℤ) (picks : List ν) :
    Option (HyParView ν A × List ν) :=
  if ttl = h.prwl then h.addPassive nid picks else some (h, picks)

/-- The walk goes on to an active node other than the sender, which raises if the sender is not
hashable. -/
def forward (h : HyParView ν A) (src : Option ν) (nid : ν) (address : A) (ttl : ℤ)
    (d : Draws ν) : Option (HyParView ν A) :=
  match src with
  | none => some h
  | some src =>
    if h.active \ {src, nid} ≠ ∅ then do
      let (nxt, _) ← choose (h.active \ {src, nid}) d.picks
      some (h.sendThen nxt (.forwardJoin (some h.id) (some nid) address (ttl - 1))
        (.send .done))
    else h.addActive nid .done d

def onForwardJoin (h : HyParView ν A) (src : Option ν) (nid : ν) (address : A) (ttl : ℤ)
    (d : Draws ν) : Option (HyParView ν A) :=
  let h := h.record nid address
  if ttl = 0 ∨ h.active.card ≤ 1 then h.addActive nid (.neighbor nid) d
  else do
    let (h, picks) ← h.deposit nid ttl d.picks
    h.forward src nid address ttl { d with picks }

def onNeighbor (h : HyParView ν A) (nid : ν) (address : A) (high : Bool) (d : Draws ν) :
    Option (HyParView ν A) :=
  let h := h.record nid address
  if high = true ∨ h.active.card < h.activeSize then h.addActive nid (.reply nid true) d
  else h.proceed (.reply nid false) d

def onNeighborReply (h : HyParView ν A) (nid : ν) (address : A) (accepted : Bool)
    (d : Draws ν) : Option (HyParView ν A) :=
  let h := h.record nid address
  if accepted then h.addActive nid .done d else (h.addPassive nid d.picks).map Prod.fst

def onDisconnect (h : HyParView ν A) (nid : ν) (d : Draws ν) : Option (HyParView ν A) :=
  if nid ∈ h.active then
    ({ h with active := h.active.erase nid }.addPassive nid d.picks).map Prod.fst
  else some h

/-- `_integrate`, which raises at a pair that cannot be unpacked. -/
def integrate (h : HyParView ν A) : List (Option (ν × A)) → List ν → Option (HyParView ν A)
  | [], _ => some h
  | none :: _, _ => some h
  | some (nid, address) :: nodes, picks =>
    if nid = h.id then h.integrate nodes picks
    else do
      let (h, picks) ← (h.record nid address).addPassive nid picks
      h.integrate nodes picks

/-- The draw is what `_sample` may yield for up to four members of the views. -/
def Samples (h : HyParView ν A) (sample : List ν) : Prop :=
  sample.Nodup ∧ (∀ n ∈ sample, n ∈ (h.active ∪ h.passive).erase h.id) ∧
    sample.length = min 4 ((h.active ∪ h.passive).erase h.id).card

instance (h : HyParView ν A) (sample : List ν) : Decidable (h.Samples sample) :=
  inferInstanceAs (Decidable (_ ∧ _ ∧ _))

def withAddresses (h : HyParView ν A) (sample : List ν) : List (Option (ν × A)) :=
  sample.filterMap (fun n => (h.addr n).map (fun a => some (n, a)))

def shuffle (h : HyParView ν A) (d : Draws ν) (picks : List ν) : Option (HyParView ν A) :=
  if h.active = ∅ then some h
  else do
    let (target, _) ← choose h.active picks
    if h.Samples d.sample then
      some (h.sendThen target (.shuffle (some h.id) (some h.id) h.address
        (h.withAddresses d.sample) h.shuffleTtl) (.send .done))
    else none

/-- `_record` of an id that may not be hashable and is then not recorded. -/
def recordAny (h : HyParView ν A) (nodeId : Option ν) (address : A) : HyParView ν A :=
  match nodeId with
  | some nodeId => h.record nodeId address
  | none => h

/-- The end of the walk of a shuffle: the reply to its origin, which raises if the origin is not
hashable. -/
def replyShuffle (h : HyParView ν A) (origin : Option ν) (nodes : List (Option (ν × A)))
    (d : Draws ν) : Option (HyParView ν A) :=
  match origin with
  | none => some h
  | some origin =>
    if h.Samples d.sample then
      some (h.sendThen origin
        (.shuffleReply (some h.id) h.address (some (h.withAddresses d.sample)))
        (.integrate nodes))
    else none

def onShuffle (h : HyParView ν A) (src origin : Option ν) (originAddr : A)
    (nodes : List (Option (ν × A))) (ttl : ℤ) (d : Draws ν) : Option (HyParView ν A) :=
  let h := h.recordAny origin originAddr
  if 0 < ttl - 1 ∧ h.active ≠ ∅ then
    match src with
    | none => some h
    | some src =>
      if h.active \ {src} ≠ ∅ then do
        let (nxt, _) ← choose (h.active \ {src}) d.picks
        some (h.sendThen nxt (.shuffle (some h.id) origin originAddr nodes (ttl - 1))
          (.integrate nodes))
      else h.replyShuffle origin nodes d
  else h.replyShuffle origin nodes d

def onShuffleReply (h : HyParView ν A) (nodeId : Option ν) (address : A)
    (nodes : Option (List (Option (ν × A)))) (d : Draws ν) : Option (HyParView ν A) :=
  let h := h.recordAny nodeId address
  match nodes with
  | none => some h
  | some nodes => h.integrate nodes d.picks

/-- The loop of `_tick` from its test on. -/
def tickLoop (h : HyParView ν A) (d : Draws ν) : Option (HyParView ν A) :=
  if h.active.card < h.activeSize ∧ h.passive ≠ ∅ then do
    let (candidate, _) ← choose h.passive d.picks
    some ({ h with passive := h.passive.erase candidate }.sendThen candidate
      (.neighbor (some h.id) h.address (decide (h.active = ∅))) (.tick candidate))
  else h.shuffle d d.picks

def pruneDead (h : HyParView ν A) (alive : Finset ν) : HyParView ν A :=
  { h with active := h.active ∩ alive, passive := h.passive ∩ alive }

/-- A message arrives and its handler runs to its first send. One that raises has no effect beyond
what it did before. -/
def receive (h : HyParView ν A) (m : HpvMessage ν A) (d : Draws ν) : Option (HyParView ν A) :=
  match m with
  | .join (some nid) address => h.onJoin nid address d
  | .forwardJoin src (some nid) address ttl => h.onForwardJoin src nid address ttl d
  | .neighbor (some nid) address high => h.onNeighbor nid address high d
  | .neighborReply (some nid) address accepted => h.onNeighborReply nid address accepted d
  | .disconnect (some nid) => h.onDisconnect nid d
  | .shuffle src origin originAddr nodes ttl => h.onShuffle src origin originAddr nodes ttl d
  | .shuffleReply nodeId address nodes => h.onShuffleReply nodeId address nodes d
  | _ => some h

/-- A send returns and its handler runs to its next send. -/
def resume (h : HyParView ν A) (p : HpvPending ν A) (d : Draws ν) : Option (HyParView ν A) :=
  match p with
  | .addActive nid next => { h with active := insert nid h.active }.proceed next d
  | .tick candidate => { h with active := insert candidate h.active }.tickLoop d
  | .integrate nodes => h.integrate nodes d.picks
  | .send next => h.proceed next d

end HyParView

/-- A message arrives, the node ticks, a send of a suspended handler returns, or the failure
detector calls `prune_dead`. -/
inductive HpvAction (ν A : Type)
  | receive (m : HpvMessage ν A) (d : Draws ν)
  | tick (d : Draws ν)
  | resume (i : ℕ) (d : Draws ν)
  | pruneDead (alive : Finset ν)

namespace HyParView

variable {ν A : Type} [DecidableEq ν] [Truthy ν] [Truthy A]

def step (h : HyParView ν A) : HpvAction ν A → Option (HyParView ν A)
  | .receive m d => h.receive m d
  | .tick d => h.tickLoop d
  | .resume i d => do
    let p ← h.pending[i]?
    { h with pending := h.pending.eraseIdx i }.resume p d
  | .pruneDead alive => some (h.pruneDead alive)

end HyParView

end Suprime
