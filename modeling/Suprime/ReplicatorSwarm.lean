import Mathlib.Logic.Relation
import Mathlib.Order.Lattice
import Suprime.Replicator
import Suprime.ReprInjective

namespace Suprime
set_option autoImplicit true

namespace Replicate

structure SyncMessage (ν κ F : Type) where
  src : ν
  dst : ν
  payload : Dict κ (PyValue F)

/-- The replicators of the nodes and all messages that were sent. -/
structure ReplicatorSwarm (ν κ σ F : Type) where
  node : ν → CRDTReplicator κ σ
  sent : List (SyncMessage ν κ F)

/-- A message may be delivered late, out of order, more than once or never. -/
inductive ReplicatorAction (ν κ ω σ : Type)
  | register (n : ν) (name : κ) (crdt : σ) (onChange : Option (σ → Bool))
  | perform (n : ν) (name : κ) (op : ω)
  | tick (n : ν) (alive drawn : List ν)
  | deliver (i : ℕ)

namespace ReplicatorSwarm

variable {ν κ ω σ F : Type} [DecidableEq ν] [DecidableEq κ] [FiniteFloat F] [DecidableEq F]
  [UnicodeData]

def init (fanout fullSyncEvery : ν → ℕ) : ReplicatorSwarm ν κ σ F where
  node n := .init (fanout n) (fullSyncEvery n)
  sent := []

def setNode (s : ReplicatorSwarm ν κ σ F) (n : ν) (r : CRDTReplicator κ σ) :
    ReplicatorSwarm ν κ σ F :=
  { s with node := Function.update s.node n r }

def messages (n : ν) : Option (List ν × Dict κ (PyValue F)) → List (SyncMessage ν κ F)
  | none => []
  | some (targets, payload) => targets.map (⟨n, ·, payload⟩)

def step (X : Crdt ω σ F) (s : ReplicatorSwarm ν κ σ F) :
    ReplicatorAction ν κ ω σ → Option (ReplicatorSwarm ν κ σ F)
  | .register n name crdt onChange =>
    some (s.setNode n ((s.node n).register name crdt onChange))
  | .perform n name op => do
    let r ← (s.node n).performOn X name op
    some (s.setNode n r)
  | .tick n alive drawn =>
    if alive.length ≤ (s.node n).fanout ∨
        CRDTReplicator.Samples alive (s.node n).fanout drawn then
      let r := (s.node n).tick X alive drawn
      some { s.setNode n r.1 with sent := s.sent ++ messages n r.2 }
    else none
  | .deliver i => do
    let m ← s.sent[i]?
    some (s.setNode m.dst ((s.node m.dst).onSync X m.payload).node)

section
omit [DecidableEq F]

theorem step_cases {X : Crdt ω σ F} {s s' : ReplicatorSwarm ν κ σ F}
    {a : ReplicatorAction ν κ ω σ} (h : s.step X a = some s') :
    (∃ n name crdt onChange, a = .register n name crdt onChange ∧
      s' = s.setNode n ((s.node n).register name crdt onChange)) ∨
    (∃ n name op r, a = .perform n name op ∧ (s.node n).performOn X name op = some r ∧
      s' = s.setNode n r) ∨
    (∃ n alive drawn, a = .tick n alive drawn ∧
      s' = { s.setNode n ((s.node n).tick X alive drawn).1 with
        sent := s.sent ++ messages n ((s.node n).tick X alive drawn).2 }) ∨
    ∃ i m, a = .deliver i ∧ s.sent[i]? = some m ∧
      s' = s.setNode m.dst ((s.node m.dst).onSync X m.payload).node := by
  cases a with
  | register n name crdt onChange =>
    cases h
    exact .inl ⟨n, name, crdt, onChange, rfl, rfl⟩
  | perform n name op =>
    obtain ⟨r, hr, h⟩ := Option.bind_eq_some_iff.1 h
    cases h
    exact .inr (.inl ⟨n, name, op, r, rfl, hr, rfl⟩)
  | tick n alive drawn =>
    rw [step] at h
    split at h
    · cases h
      exact .inr (.inr (.inl ⟨n, alive, drawn, rfl, rfl⟩))
    · cases h
  | deliver i =>
    obtain ⟨m, hm, h⟩ := Option.bind_eq_some_iff.1 h
    cases h
    exact .inr (.inr (.inr ⟨i, m, rfl, hm, rfl⟩))

end

/-- A round whose payload has a name. -/
def Ships (X : Crdt ω σ F) (s : ReplicatorSwarm ν κ σ F) (a : ReplicatorAction ν κ ω σ) (n : ν)
    (name : κ) : Prop :=
  ∃ alive drawn targets payload, a = .tick n alive drawn ∧
    ((s.node n).tick X alive drawn).2 = some (targets, payload) ∧ payload.get name ≠ none

/-- A message reaches a node that has an object under the name, and no exception keeps it from
taking in the digest. -/
def Takes (X : Crdt ω σ F) (s : ReplicatorSwarm ν κ σ F) (a : ReplicatorAction ν κ ω σ) (i : ℕ)
    (n : ν) (name : κ) : Prop :=
  a = .deliver i ∧ (s.node n).get name ≠ none ∧
    ∀ m, s.sent[i]? = some m → ((s.node n).onSync X m.payload).raised = false

/-- The last message with the digest of a name that a node has sent reached another node. -/
def Reached (X : Crdt ω σ F)
    (past : List (ReplicatorSwarm ν κ σ F × ReplicatorAction ν κ ω σ)) (name : κ) (m n : ν) :
    Prop :=
  ∃ post t alive drawn pre targets payload k,
    past = post ++ (t, .tick m alive drawn) :: pre ∧
    ((t.node m).tick X alive drawn).2 = some (targets, payload) ∧ payload.get name ≠ none ∧
    targets[k]? = some n ∧ (∀ p ∈ post, ¬ Ships X p.1 p.2 m name) ∧
    ∃ p ∈ post, Takes X p.1 p.2 (t.sent.length + k) n name

/-- Objects that are registered are good, and no name is registered twice at a node. -/
def Registers (good : σ → Prop) (name : κ) (s : ReplicatorSwarm ν κ σ F) :
    ReplicatorAction ν κ ω σ → Prop
  | .register n name' crdt _ => name' = name → good crdt ∧ (s.node n).get name = none
  | _ => True

/-- Local operations and digests join something into what an object shows. -/
structure Joins {L : Type u} [SemilatticeSup L] (X : Crdt ω σ F) (good : σ → Prop)
    (view : σ → L) : Prop where
  perform : ∀ {c op c'}, good c → X.perform c op = some c' → good c' ∧ view c ≤ view c'
  apply : ∀ {a b}, good a → good b → good (X.applyDigest a (X.digest b)).1 ∧
    view (X.applyDigest a (X.digest b)).1 = view a ⊔ view b

/-- All objects of a name are good, and all digests that were sent are digests of good objects. -/
structure Ok (X : Crdt ω σ F) (good : σ → Prop) (name : κ) (s : ReplicatorSwarm ν κ σ F) :
    Prop where
  node : ∀ n c, (s.node n).get name = some c → good c
  sent : ∀ m ∈ s.sent, ∀ d, m.payload.get name = some d → ∃ b, good b ∧ d = X.digest b

section
omit [DecidableEq F] [DecidableEq κ] [FiniteFloat F] [UnicodeData]

@[simp] theorem node_setNode (s : ReplicatorSwarm ν κ σ F) (n : ν) (r : CRDTReplicator κ σ) :
    (s.setNode n r).node = Function.update s.node n r := rfl

@[simp] theorem sent_setNode (s : ReplicatorSwarm ν κ σ F) (n : ν) (r : CRDTReplicator κ σ) :
    (s.setNode n r).sent = s.sent := rfl

end

section
omit [DecidableEq F] [DecidableEq ν]

theorem get_tick (X : Crdt ω σ F) (r : CRDTReplicator κ σ) (alive drawn : List ν) (name : κ) :
    (r.tick X alive drawn).1.get name = r.get name := by
  rw [CRDTReplicator.get, (r.tick_cases X alive drawn).1]
  rfl

end

/-- What happens to the object of a name in a step. -/
inductive Changes (X : Crdt ω σ F) (s : ReplicatorSwarm ν κ σ F) (a : ReplicatorAction ν κ ω σ)
    (name : κ) (n : ν) : Option σ → Prop
  | stays : Changes X s a name n ((s.node n).get name)
  | register (crdt : σ) (onChange : Option (σ → Bool)) :
    a = .register n name crdt onChange → Changes X s a name n (some crdt)
  | perform (op : ω) (c c' : σ) : a = .perform n name op → (s.node n).get name = some c →
    X.perform c op = some c' → Changes X s a name n (some c')
  | apply (i : ℕ) (m : SyncMessage ν κ F) (c : σ) (d : PyValue F) : a = .deliver i →
    s.sent[i]? = some m → m.dst = n → (s.node n).get name = some c →
    m.payload.get name = some d → Changes X s a name n (some (X.applyDigest c d).1)

section
omit [DecidableEq F]

theorem changes_step {X : Crdt ω σ F} {s s' : ReplicatorSwarm ν κ σ F}
    {a : ReplicatorAction ν κ ω σ} (h : s.step X a = some s') (name : κ) (n : ν) :
    Changes X s a name n ((s'.node n).get name) := by
  rcases step_cases h with ⟨k, name', crdt, onChange, rfl, rfl⟩ | ⟨k, name', op, r, rfl, hr, rfl⟩ |
    ⟨k, alive, drawn, rfl, rfl⟩ | ⟨i, m, rfl, hm, rfl⟩
  · rw [node_setNode]
    by_cases hn : n = k
    · subst hn
      rw [Function.update_self, CRDTReplicator.get_register]
      by_cases hk : name = name'
      · subst hk
        rw [if_pos rfl]
        exact .register crdt onChange rfl
      · rw [if_neg hk]
        exact .stays
    · rw [Function.update_of_ne hn]
      exact .stays
  · rw [node_setNode]
    by_cases hn : n = k
    · subst hn
      obtain ⟨c, c', hc, hc', rfl⟩ := CRDTReplicator.performOn_spec hr
      rw [Function.update_self, CRDTReplicator.get]
      dsimp only
      rw [Dict.get_set]
      by_cases hk : name = name'
      · subst hk
        rw [if_pos rfl]
        exact .perform op c c' rfl hc hc'
      · rw [if_neg hk]
        exact .stays
    · rw [Function.update_of_ne hn]
      exact .stays
  · dsimp only
    rw [node_setNode]
    by_cases hn : n = k
    · subst hn
      rw [Function.update_self, get_tick]
      exact .stays
    · rw [Function.update_of_ne hn]
      exact .stays
  · rw [node_setNode]
    by_cases hn : n = m.dst
    · subst hn
      rw [Function.update_self]
      rcases ((s.node m.dst).synced_onSync X m.payload).get name with ⟨hget, _⟩ |
        ⟨c, d, hc, hd, hget⟩
      · rw [hget]
        exact .stays
      · rw [hget]
        exact .apply i m c d rfl hm rfl hc hd
    · rw [Function.update_of_ne hn]
      exact .stays

end

section
omit [DecidableEq F] [DecidableEq ν]

theorem messages_tick (X : Crdt ω σ F) (r : CRDTReplicator κ σ) (n : ν) (alive drawn : List ν) :
    ∀ m ∈ messages n (r.tick X alive drawn).2, m.src = n ∧ ∀ name d,
      m.payload.get name = some d → ∃ c, r.get name = some c ∧ d = X.digest c := by
  intro m hm
  cases hout : (r.tick X alive drawn).2 with
  | none =>
    rw [hout] at hm
    cases hm
  | some sent =>
    rw [hout, messages] at hm
    obtain ⟨k, _, rfl⟩ := List.mem_map.1 hm
    refine ⟨rfl, fun name d hd => ?_⟩
    rcases r.lastSent_tick X alive drawn name with ⟨payload, c, hout', hc, hpayload, _⟩ | ⟨hnone, _⟩
    · cases hout.symm.trans hout'
      exact ⟨c, hc, Option.some.inj (hd.symm.trans hpayload)⟩
    · rw [hnone sent hout] at hd
      cases hd

end

section
omit [DecidableEq F]

theorem sent_step {X : Crdt ω σ F} {s s' : ReplicatorSwarm ν κ σ F}
    {a : ReplicatorAction ν κ ω σ} (h : s.step X a = some s') :
    ∃ l, s'.sent = s.sent ++ l ∧ ∀ m ∈ l, ∀ name d, m.payload.get name = some d →
      ∃ c, (s.node m.src).get name = some c ∧ d = X.digest c := by
  rcases step_cases h with ⟨k, name', crdt, onChange, rfl, rfl⟩ | ⟨k, name', op, r, rfl, hr, rfl⟩ |
    ⟨k, alive, drawn, rfl, rfl⟩ | ⟨i, m, rfl, hm, rfl⟩
  · exact ⟨[], (List.append_nil _).symm, fun m hm => by cases hm⟩
  · exact ⟨[], (List.append_nil _).symm, fun m hm => by cases hm⟩
  · refine ⟨_, rfl, fun m hm => ?_⟩
    obtain ⟨rfl, hpayload⟩ := messages_tick X _ k alive drawn m hm
    exact hpayload
  · exact ⟨[], (List.append_nil _).symm, fun m hm => by cases hm⟩

end

section
variable {L : Type u} [SemilatticeSup L] {X : Crdt ω σ F} {good : σ → Prop} {view : σ → L}
  {name : κ}

section
omit [DecidableEq F] [FiniteFloat F] [UnicodeData] [DecidableEq ν]

theorem Ok.init (X : Crdt ω σ F) (good : σ → Prop) (name : κ) (fanout fullSyncEvery : ν → ℕ) :
    (ReplicatorSwarm.init fanout fullSyncEvery).Ok X good name where
  node n c h := by cases h
  sent m hm := by cases hm

end

section
omit [DecidableEq F]

theorem Ok.step {s s' : ReplicatorSwarm ν κ σ F} (hX : Joins X good view) (h : s.Ok X good name)
    (hreg : Registers good name s a) (hs : s.step X a = some s') : s'.Ok X good name where
  node n c hc := by
    have hch := changes_step hs name n
    rw [hc] at hch
    generalize hc' : some c = o at hch
    cases hch with
    | stays => exact h.node n c hc'.symm
    | register crdt onChange ha =>
      cases hc'
      subst ha
      exact (hreg rfl).1
    | perform op b b' _ hb hb' =>
      cases hc'
      exact (hX.perform (h.node n b hb) hb').1
    | apply i m b d _ hm _ hb hd =>
      cases hc'
      obtain ⟨e, he, rfl⟩ := h.sent m (List.mem_of_getElem? hm) d hd
      exact (hX.apply (h.node n b hb) he).1
  sent m hm d hd := by
    obtain ⟨l, hl, hnew⟩ := sent_step hs
    rw [hl] at hm
    rcases List.mem_append.1 hm with hm | hm
    · exact h.sent m hm d hd
    · obtain ⟨c, hc, rfl⟩ := hnew m hm name d hd
      exact ⟨c, h.node _ c hc, rfl⟩

theorem Ok.of_run {s : ReplicatorSwarm ν κ σ F} {fanout fullSyncEvery : ν → ℕ}
    (hX : Joins X good view)
    (hrun : Run (ReplicatorSwarm.step X) (ReplicatorSwarm.init fanout fullSyncEvery) past s)
    (hreg : ∀ p ∈ past, Registers good name p.1 p.2) : s.Ok X good name :=
  hrun.invariant hreg (.init X good name fanout fullSyncEvery)
    (fun _ _ _ hs hC hstep => hs.step hX hC hstep)

theorem view_step {s s' : ReplicatorSwarm ν κ σ F} (hX : Joins X good view) (h : s.Ok X good name)
    (hreg : Registers good name s a) (hs : s.step X a = some s')
    (hc : (s.node n).get name = some c) :
    ∃ c', (s'.node n).get name = some c' ∧ view c ≤ view c' := by
  have hch := changes_step hs name n
  generalize hc' : (s'.node n).get name = o at hch
  cases hch with
  | stays => exact ⟨c, hc, le_rfl⟩
  | register crdt onChange ha =>
    subst ha
    rw [(hreg rfl).2] at hc
    cases hc
  | perform op b b' _ hb hb' =>
    cases hc.symm.trans hb
    exact ⟨b', rfl, (hX.perform (h.node n c hc) hb').2⟩
  | apply i m b d _ hm _ hb hd =>
    cases hc.symm.trans hb
    obtain ⟨e, he, rfl⟩ := h.sent m (List.mem_of_getElem? hm) d hd
    refine ⟨_, rfl, ?_⟩
    rw [(hX.apply (h.node n c hc) he).2]
    exact le_sup_left

end

end

end ReplicatorSwarm

end Replicate

end Suprime
