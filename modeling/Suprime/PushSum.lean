import Mathlib.Algebra.BigOperators.Group.Finset.Basic
import Mathlib.Algebra.BigOperators.Group.List.Basic
import Mathlib.Algebra.BigOperators.Pi
import Mathlib.Algebra.Group.Prod
import Mathlib.Data.Fintype.Basic
import Mathlib.Data.Rat.Defs
import Mathlib.Tactic.Ring
import Mathlib.Tactic.Abel
import Suprime.Dict
import Suprime.Run

namespace Suprime
set_option autoImplicit true

variable {ν κ : Type} [DecidableEq ν] [DecidableEq κ]

/-- `_Mass`, over the exact rationals. -/
structure Mass where
  s : ℚ
  w : ℚ
deriving DecidableEq

namespace Mass

def pair (m : Mass) : ℚ × ℚ := (m.s, m.w)

def add (m other : Mass) : Mass := ⟨m.s + other.s, m.w + other.w⟩

def total (masses : List Mass) : Mass := masses.foldl add ⟨0, 0⟩

def keep (m : Mass) : Mass := ⟨m.s / 2, m.w / 2⟩

def send (m : Mass) : Mass := ⟨m.s - m.keep.s, m.w - m.keep.w⟩

end Mass

/-- A `PushSumAggregator`. The inbox maps a key to a list object, which a suspended round and the
inbox may share: the objects are numbered in the order of their creation. -/
structure PushSumAggregator (κ : Type) where
  lists : List (List Mass)
  inbox : Dict κ ℕ
  estimate : Dict κ ℚ

namespace PushSumAggregator

def init : PushSumAggregator κ := ⟨[], .empty, .empty⟩

def list (a : PushSumAggregator κ) (i : ℕ) : List Mass := a.lists.getD i []

/-- `self._inbox[key] = masses` with a new list object. -/
def setList (a : PushSumAggregator κ) (key : κ) (masses : List Mass) : PushSumAggregator κ :=
  { a with lists := a.lists ++ [masses], inbox := a.inbox.set key a.lists.length }

/-- `self._inbox.setdefault(key, []).append(mass)`. -/
def append (a : PushSumAggregator κ) (key : κ) (mass : Mass) : PushSumAggregator κ :=
  match a.inbox.get key with
  | some i => { a with lists := a.lists.set i (a.list i ++ [mass]) }
  | none => a.setList key [mass]

def start (a : PushSumAggregator κ) (key : κ) (value weight : ℚ) : PushSumAggregator κ :=
  a.append key ⟨value, weight⟩

def onMessage (a : PushSumAggregator κ) (key : κ) (s w : ℚ) : PushSumAggregator κ :=
  a.append key ⟨s, w⟩

/-- What `_round` does for a key before it looks for a peer: half of the mass stays. -/
def halve (a : PushSumAggregator κ) (key : κ) (total : Mass) : PushSumAggregator κ :=
  let a := if 0 < total.w then { a with estimate := a.estimate.set key (total.s / total.w) } else a
  (a.setList key []).append key total.keep

/-- `_round` up to its next `send`, for the keys that are left: the aggregator, the send that the
round is suspended at and the keys after it. The peers do not change until then, so that either
every key finds no alive peer or the first key with mass is sent. -/
def round (a : PushSumAggregator κ) (peer : Option ν) :
    List (κ × ℕ) → PushSumAggregator κ × Option (ν × κ × Mass) × List (κ × ℕ)
  | [] => (a, none, [])
  | (key, i) :: todo =>
    if a.list i = [] then a.round peer todo
    else
      let total := Mass.total (a.list i)
      match peer with
      | none => ((a.halve key total).append key total.send).round peer todo
      | some target => (a.halve key total, some (target, key, total.send), todo)

end PushSumAggregator

inductive PacketState
  | inFlight
  | delivered
  | lost
deriving DecidableEq

/-- A push-sum message that was handed to `node.send`. -/
structure MassPacket (ν κ : Type) where
  dst : ν
  key : κ
  mass : Mass
  state : PacketState

/-- A call of `_round`: the send that it awaits and the keys that it has still to visit. -/
structure PushRound (ν κ : Type) where
  node : ν
  awaits : Option ℕ
  todo : List (κ × ℕ)

/-- A swarm of aggregators, all messages that were sent and all masses that were started. -/
structure PushSum (ν κ : Type) where
  node : ν → PushSumAggregator κ
  rounds : List (PushRound ν κ)
  sent : List (MassPacket ν κ)
  started : List (κ × Mass)

inductive PushAction (ν κ : Type)
  | start (n : ν) (key : κ) (value weight : ℚ)
  | round (n : ν) (peer : Option ν)
  | deliver (j : ℕ)
  | resume (r : ℕ) (ok : Bool) (peer : Option ν)

namespace PushSum

def init : PushSum ν κ := ⟨fun _ => .init, [], [], []⟩

def setNode (s : PushSum ν κ) (n : ν) (a : PushSumAggregator κ) : PushSum ν κ :=
  { s with node := Function.update s.node n a }

/-- The round of node `n` runs to its next send: the swarm and the round after it. -/
def advance (s : PushSum ν κ) (n : ν) (peer : Option ν) (todo : List (κ × ℕ)) :
    PushSum ν κ × PushRound ν κ :=
  match (s.node n).round peer todo with
  | (a, none, todo) => (s.setNode n a, ⟨n, none, todo⟩)
  | (a, some (dst, key, mass), todo) =>
    ({ s.setNode n a with sent := s.sent ++ [⟨dst, key, mass, .inFlight⟩] },
      ⟨n, some s.sent.length, todo⟩)

/-- Steps of the swarm. A message is in flight from the call of `send` on, and may be delivered
before `send` returns; a message for which `send` returns `False` is not delivered. -/
def step (s : PushSum ν κ) : PushAction ν κ → Option (PushSum ν κ)
  | .start n key value weight =>
    some { s.setNode n ((s.node n).start key value weight) with
      started := s.started ++ [(key, ⟨value, weight⟩)] }
  | .round n peer =>
    let (s', r) := s.advance n peer (s.node n).inbox.items
    some { s' with rounds := s.rounds ++ [r] }
  | .deliver j =>
    match s.sent[j]? with
    | some ⟨dst, key, mass, .inFlight⟩ =>
      some { s.setNode dst ((s.node dst).onMessage key mass.s mass.w) with
        sent := s.sent.set j ⟨dst, key, mass, .delivered⟩ }
    | _ => none
  | .resume r ok peer =>
    match s.rounds[r]? with
    | some ⟨n, some j, todo⟩ =>
      match ok, s.sent[j]? with
      | true, _ =>
        let (s', t) := s.advance n peer todo
        some { s' with rounds := s.rounds.set r t }
      | false, some ⟨dst, key, mass, .inFlight⟩ =>
        let (s', t) :=
          { s with sent := s.sent.set j ⟨dst, key, mass, .lost⟩ }.advance n peer todo
        some { s' with rounds := s.rounds.set r t }
      | false, _ => none
    | _ => none

end PushSum

end Suprime
