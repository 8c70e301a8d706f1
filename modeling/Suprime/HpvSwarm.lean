import Mathlib.Logic.Function.Basic
import Suprime.HyParView

namespace Suprime
set_option autoImplicit true

/-- Nodes with the arguments of their constructors and distinct addresses. Ids and addresses are
not empty, and with no room for a passive member the handlers raise. -/
structure HpvNet (ν A : Type) [Truthy ν] [Truthy A] where
  address : ν → A
  activeSize : ν → ℕ
  passiveSize : ν → ℕ
  arwl : ν → ℤ
  prwl : ν → ℤ
  shuffleTtl : ν → ℤ
  distinct : Function.Injective address
  truthyId : ∀ n : ν, Truthy.truthy n = true
  truthyAddress : ∀ n, Truthy.truthy (address n) = true
  passivePos : ∀ n, 1 ≤ passiveSize n

/-- The nodes, and the messages that were sent and not delivered, with the addresses they are
for. -/
structure HpvSwarm (ν A : Type) where
  node : ν → HyParView ν A
  inFlight : List (A × HpvMessage ν A)

/-- A node joins through another one, ticks, or handles a message; the handler draws at its start
and after each of its sends. -/
inductive HpvSwarmAction (ν : Type)
  | join (n contact : ν)
  | tick (n : ν) (d : Draws ν) (ds : List (Draws ν))
  | deliver (i : ℕ) (n : ν) (d : Draws ν) (ds : List (Draws ν))

namespace HyParView

variable {ν A : Type} [DecidableEq ν] [Truthy ν] [Truthy A]

/-- The sends of a handler return one after another until it is done. -/
def drain (h : HyParView ν A) : List (Draws ν) → Option (HyParView ν A)
  | [] => match h.pending with
    | [] => some h
    | _ :: _ => none
  | d :: ds => match h.pending with
    | [] => none
    | p :: pending => do
      let h ← { h with pending := pending }.resume p d
      h.drain ds

end HyParView

/-- The receiver takes in the node, unless it refuses. -/
def HpvMessage.invites [DecidableEq ν] (x : ν) : HpvMessage ν A → Bool
  | .neighbor (some n) _ _ => decide (n = x)
  | .neighborReply (some n) _ true => decide (n = x)
  | _ => false

def HpvMessage.severs [DecidableEq ν] (x : ν) : HpvMessage ν A → Bool
  | .disconnect (some n) => decide (n = x)
  | _ => false

/-- A message of some kind for an address is among the sent ones. -/
def Told (sent : List (A × HpvMessage ν A)) (a : A) (kind : HpvMessage ν A → Bool) : Prop :=
  ∃ p ∈ sent, p.1 = a ∧ kind p.2 = true

instance [DecidableEq A] (sent : List (A × HpvMessage ν A)) (a : A)
    (kind : HpvMessage ν A → Bool) : Decidable (Told sent a kind) :=
  inferInstanceAs (Decidable (∃ p ∈ sent, p.1 = a ∧ kind p.2 = true))

namespace HpvSwarm

variable {ν A : Type} [DecidableEq ν] [DecidableEq A] [Truthy ν] [Truthy A]

def init (net : HpvNet ν A) : HpvSwarm ν A where
  node n := .init n (net.address n) (net.activeSize n) (net.passiveSize n) (net.arwl n)
    (net.prwl n) (net.shuffleTtl n)
  inFlight := []

/-- A handler of a node is done, and what it sent is in flight. -/
def ran (s : HpvSwarm ν A) (n : ν) (h : HyParView ν A) : HpvSwarm ν A where
  node := Function.update s.node n { h with sent := [] }
  inFlight := s.inFlight ++ h.sent

def step (net : HpvNet ν A) (s : HpvSwarm ν A) : HpvSwarmAction ν → Option (HpvSwarm ν A)
  | .join n contact => some { s with
      inFlight := s.inFlight ++ [(net.address contact, .join (some n) (net.address n))] }
  | .tick n d ds => do
    let h ← (s.node n).tickLoop d
    let h ← h.drain ds
    some (s.ran n h)
  | .deliver i n d ds => do
    let (a, m) ← s.inFlight[i]?
    if a = net.address n then do
      let h ← (s.node n).receive m d
      let h ← h.drain ds
      some ({ s with inFlight := s.inFlight.eraseIdx i }.ran n h)
    else none

/-- A message on its way makes the link from `x` to `y` one in both directions or in none. -/
def Mends (net : HpvNet ν A) (inFlight : List (A × HpvMessage ν A)) (x y : ν) : Prop :=
  Told inFlight (net.address y) (HpvMessage.invites x) ∨
    Told inFlight (net.address x) (HpvMessage.severs y)

instance (net : HpvNet ν A) (inFlight : List (A × HpvMessage ν A)) (x y : ν) :
    Decidable (Mends net inFlight x y) :=
  inferInstanceAs (Decidable (_ ∨ _))

/-- What holds of a message that is delivered to a node: a refusal of a node that has the link
already, an acceptance by a node that has dropped the link since, and a disconnection by a node
that has the link again find another message on its way that mends the link. -/
def Mended (net : HpvNet ν A) (s : HpvSwarm ν A) (rest : List (A × HpvMessage ν A)) (n : ν) :
    HpvMessage ν A → Prop
  | .neighbor (some x) _ high => high = false → (s.node n).activeSize ≤ (s.node n).active.card →
      n ∈ (s.node x).active → x ∉ (s.node n).active → Mends net rest x n
  | .neighborReply (some x) _ accepted => accepted = true → x ∉ (s.node n).active →
      n ∉ (s.node x).active → Mends net rest n x
  | .disconnect (some x) => x ∈ (s.node n).active → n ∈ (s.node x).active → Mends net rest x n
  | _ => True

instance (net : HpvNet ν A) (s : HpvSwarm ν A) (rest : List (A × HpvMessage ν A)) (n : ν) :
    (m : HpvMessage ν A) → Decidable (s.Mended net rest n m)
  | .neighbor (some _) _ _ => inferInstanceAs (Decidable (_ → _ → _ → _ → _))
  | .neighborReply (some _) _ _ => inferInstanceAs (Decidable (_ → _ → _ → _))
  | .disconnect (some _) => inferInstanceAs (Decidable (_ → _ → _))
  | .neighbor none _ _ => isTrue trivial
  | .neighborReply none _ _ => isTrue trivial
  | .disconnect none => isTrue trivial
  | .join .. => isTrue trivial
  | .forwardJoin .. => isTrue trivial
  | .shuffle .. => isTrue trivial
  | .shuffleReply .. => isTrue trivial
  | .malformed => isTrue trivial

/-- What a step must meet. -/
def Meets (net : HpvNet ν A) (s : HpvSwarm ν A) : HpvSwarmAction ν → Prop
  | .deliver i n _ _ => ∀ p ∈ s.inFlight[i]?, s.Mended net (s.inFlight.eraseIdx i) n p.2
  | _ => True

instance (net : HpvNet ν A) (s : HpvSwarm ν A) :
    (a : HpvSwarmAction ν) → Decidable (s.Meets net a)
  | .deliver i n _ _ =>
    inferInstanceAs (Decidable (∀ p ∈ s.inFlight[i]?, s.Mended net (s.inFlight.eraseIdx i) n p.2))
  | .join .. => isTrue trivial
  | .tick .. => isTrue trivial

end HpvSwarm

end Suprime
