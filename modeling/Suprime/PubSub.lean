import Suprime.PlumtreeRuns

namespace Suprime
set_option autoImplicit true

/-- What `publish` hands to the broadcast. -/
structure PsEnvelope (τ δ : Type) where
  topic : τ
  data : δ
  deriving DecidableEq

/-- History of a node that takes in an id that is new to it: the subscribers of the topic, those
that were called, and the eager peers when the handler starts to push. -/
structure Intake (ν μ β σ : Type) where
  node : ν
  mid : μ
  payload : β
  sender : Option ν
  subscribers : List σ
  called : List σ
  eager : Finset ν

/-- History of a handler that took in an id and has ended, with or without an exception: the lazy
peers at that time and what it put in the queue. -/
structure Ending (ν μ : Type) where
  node : ν
  mid : μ
  sender : Option ν
  lazy : Finset ν
  queued : List (ν × μ)

/-- The loop of `_deliver`: the subscribers that are called, and whether the last of them raises.
`raises` tells it for each position. -/
def callAll : (ℕ → Bool) → List σ → List σ × Bool
  | _, [] => ([], false)
  | raises, callback :: callbacks =>
    if raises 0 then ([callback], true)
    else
      let (called, raised) := callAll (fun i => raises (i + 1)) callbacks
      (callback :: called, raised)

/-- Nodes with PubSub over Plumtree. -/
structure PsSwarm (ν μ τ δ σ : Type) where
  pt : PtSwarm ν μ (PsEnvelope τ δ)
  subs : ν → Dict τ (List σ)
  intakes : List (Intake ν μ (PsEnvelope τ δ) σ)
  endings : List (Ending ν μ)

/-- Steps of Plumtree, in which a broadcast is a `publish` and `raises` tells what the callbacks
do, and changes of the subscribers. -/
inductive PsAction (ν μ τ δ σ : Type)
  | plumtree (a : PtAction ν μ (PsEnvelope τ δ)) (raises : ℕ → Bool)
  | subscribe (n : ν) (topic : τ) (callback : σ)
  | unsubscribe (n : ν) (topic : τ)

/-- What a node takes in. -/
structure News (ν μ β : Type) where
  node : ν
  mid : μ
  payload : β
  sender : Option ν

namespace PtSwarm

variable {ν μ β : Type} [DecidableEq ν] [DecidableEq μ]

/-- The new id that an action brings to a node. -/
def news (s : PtSwarm ν μ β) : PtAction ν μ β → Option (News ν μ β)
  | .broadcast n mid payload _ => some ⟨n, mid, payload, none⟩
  | .deliver i _ =>
    match s.inFlight[i]? with
    | some ⟨src, dst, .gossip mid payload⟩ =>
      if (s.node dst).received.get mid = none then some ⟨dst, mid, payload, some src⟩ else none
    | _ => none
  | _ => none

/-- The service of the node before the first push. -/
def entered (s : PtSwarm ν μ β) (w : News ν μ β) : Plumtree ν μ β :=
  match w.sender with
  | none => (s.node w.node).started w.mid w.payload
  | some src => (s.node w.node).admitted src w.mid w.payload

/-- The step when a callback raises: the handler ends before its first push. -/
def abort (s : PtSwarm ν μ β) (w : News ν μ β) : PtAction ν μ β → PtSwarm ν μ β
  | .broadcast _ mid _ _ =>
    { s with used := s.used ++ [mid], node := Function.update s.node w.node (s.entered w) }
  | .deliver i _ =>
    { s with
      inFlight := s.inFlight.eraseIdx i
      node := Function.update s.node w.node (s.entered w) }
  | _ => s

end PtSwarm

namespace PsSwarm

variable {ν μ τ δ σ : Type} [DecidableEq ν] [DecidableEq μ] [DecidableEq τ]

def init (neighbors : ν → List ν) (graftTimeout cacheCap : ν → ℕ) : PsSwarm ν μ τ δ σ :=
  ⟨.init neighbors graftTimeout cacheCap, fun _ => .empty, [], []⟩

def subscribers (s : PsSwarm ν μ τ δ σ) (n : ν) (topic : τ) : List σ :=
  ((s.subs n).get topic).getD []

/-- The end of a handler, as it is seen in the state after its last step. -/
def ending (s t : PtSwarm ν μ (PsEnvelope τ δ)) (n : ν) (mid : μ) (sender : Option ν) :
    Ending ν μ :=
  ⟨n, mid, sender, (t.node n).lazy,
    (t.node n).lazyQueue.drop (s.node n).lazyQueue.length⟩

/-- Whether a push that starts with the eager set has nothing to send. -/
def idle (x : Plumtree ν μ (PsEnvelope τ δ)) (sender : Option ν) : Bool :=
  decide (∀ peer ∈ x.eager, some peer = sender)

/-- The handlers that end in a step without an exception. -/
def endingsOf (s t : PtSwarm ν μ (PsEnvelope τ δ)) (a : PtAction ν μ (PsEnvelope τ δ)) :
    List (Ending ν μ) :=
  match a with
  | .resume n j _ =>
    match (s.threads n)[j]? with
    | some (.push [] mid _ sender) => [ending s t n mid sender]
    | _ => []
  | a =>
    match s.news a with
    | some w => if idle (t.node w.node) w.sender then [ending s t w.node w.mid w.sender] else []
    | none => []

/-- The history of an intake in a step to `t`. -/
def intake (s : PsSwarm ν μ τ δ σ) (t : PtSwarm ν μ (PsEnvelope τ δ))
    (w : News ν μ (PsEnvelope τ δ)) (called : List σ) : Intake ν μ (PsEnvelope τ δ) σ :=
  ⟨w.node, w.mid, w.payload, w.sender, s.subscribers w.node w.payload.topic, called,
    (t.node w.node).eager⟩

def step (s : PsSwarm ν μ τ δ σ) : PsAction ν μ τ δ σ → Option (PsSwarm ν μ τ δ σ)
  | .plumtree a raises => do
    let t ← s.pt.step a
    match s.pt.news a with
    | none => some { s with pt := t, endings := s.endings ++ endingsOf s.pt t a }
    | some w =>
      let (called, raised) := callAll raises (s.subscribers w.node w.payload.topic)
      if raised then
        let t := s.pt.abort w a
        some { s with
          pt := t
          intakes := s.intakes ++ [s.intake t w called]
          endings := s.endings ++ [ending s.pt t w.node w.mid w.sender] }
      else
        some { s with
          pt := t
          intakes := s.intakes ++ [s.intake t w called]
          endings := s.endings ++ endingsOf s.pt t a }
  | .subscribe n topic callback =>
    some { s with
      subs := Function.update s.subs n
        ((s.subs n).set topic (s.subscribers n topic ++ [callback])) }
  | .unsubscribe n topic =>
    some { s with subs := Function.update s.subs n ((s.subs n).erase topic) }

/-- What every intake owes: each subscriber is called once, the message is sent to every eager peer
but the sender or a suspended handler will send it, and a handler that has ended has queued an
announcement for every lazy peer but the sender. -/
structure Spreads (s : PsSwarm ν μ τ δ σ) : Prop where
  calls : ∀ i ∈ s.intakes, i.called = i.subscribers
  sends : ∀ i ∈ s.intakes, ∀ peer ∈ i.eager, some peer ≠ i.sender →
    ⟨i.node, peer, .gossip i.mid i.payload⟩ ∈ s.pt.sent ∨
      ∃ peers, .push peers i.mid i.payload i.sender ∈ s.pt.threads i.node ∧ peer ∈ peers
  ends : ∀ i ∈ s.intakes,
    (∃ e ∈ s.endings, e.node = i.node ∧ e.mid = i.mid ∧ e.sender = i.sender) ∨
      ∃ peers, .push peers i.mid i.payload i.sender ∈ s.pt.threads i.node
  queues : ∀ e ∈ s.endings, ∀ peer ∈ e.lazy, some peer ≠ e.sender → (peer, e.mid) ∈ e.queued

/-- A node that has no peers but the sender, or no neighbours when it publishes. -/
def Alone (x : Plumtree ν μ (PsEnvelope τ δ)) : Option ν → Prop
  | none => x.neighbors = []
  | some src => ∀ peer ∈ x.eager ∪ x.lazy, peer = src

/-- No subscriber raises on a new message, or only the last one does and the node has no peers but
the sender. -/
def Harmless (s : PsSwarm ν μ τ δ σ) : PsAction ν μ τ δ σ → Prop
  | .plumtree a raises =>
    match s.pt.news a with
    | none => True
    | some w =>
      ∀ i < (s.subscribers w.node w.payload.topic).length, raises i = true →
        i + 1 = (s.subscribers w.node w.payload.topic).length ∧
          Alone (s.pt.node w.node) w.sender
  | _ => True

end PsSwarm

end Suprime
