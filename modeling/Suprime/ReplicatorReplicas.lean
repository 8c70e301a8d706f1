import Suprime.QuietSwarm

namespace Suprime
set_option autoImplicit true

namespace Replicate.ReplicatorSwarm

variable {ν κ ω ρ σ F : Type} [DecidableEq ν] [DecidableEq κ] [FiniteFloat F] [DecidableEq F]
  [UnicodeData]

/-- Objects with a digest that are replicas of a replicated type. -/
structure Follows (X : Crdt ω σ F) (R : ReplicaType ν ω ρ σ) (good : σ → Prop) : Prop where
  perform : ∀ c op, X.perform c op = (R.perform c op).map Prod.fst
  good_perform : ∀ {c op c'}, good c → X.perform c op = some c' → good c'
  apply : ∀ {a b}, good a → good b → (X.applyDigest a (X.digest b)).1 = R.absorb a b
  good_apply : ∀ {a b}, good a → good b → good (X.applyDigest a (X.digest b)).1

/-- What is registered under a name is a new replica, and no name is registered twice at a node. -/
def RegistersNew (R : ReplicaType ν ω ρ σ) (good : σ → Prop) (name : κ)
    (s : ReplicatorSwarm ν κ σ F) : ReplicatorAction ν κ ω σ → Prop
  | .register n name' crdt _ =>
    name' = name → crdt = R.init n ∧ good crdt ∧ (s.node n).get name = none
  | _ => True

/-- The local operations on the objects of a name, the first one first. -/
def performed (name : κ) : List (ReplicatorSwarm ν κ σ F × ReplicatorAction ν κ ω σ) → List (ν × ω)
  | [] => []
  | (_, .perform n name' op) :: past =>
    if name' = name then performed name past ++ [(n, op)] else performed name past
  | _ :: past => performed name past

/-- The objects of a name are the replicas, and the digests under it are those of states that were
passed on. -/
structure Mirrors (X : Crdt ω σ F) (R : ReplicaType ν ω ρ σ) (good : σ → Prop) (name : κ)
    (s : ReplicatorSwarm ν κ σ F) (r : Replicas ν ω ρ σ) : Prop where
  node : ∀ n, (s.node n).get name = some (r.state n) ∧ good (r.state n) ∨
    (s.node n).get name = none ∧ r.state n = R.init n
  sent : ∀ m ∈ s.sent, ∀ d, m.payload.get name = some d →
    ∃ x ∈ r.shared, x.node = m.src ∧ good x.state ∧ d = X.digest x.state

section
variable {X : Crdt ω σ F} {R : ReplicaType ν ω ρ σ} {good : σ → Prop} {name : κ}
  {s : ReplicatorSwarm ν κ σ F} {r : Replicas ν ω ρ σ}

section
omit [DecidableEq ν] [FiniteFloat F] [DecidableEq F] [UnicodeData]

theorem Mirrors.state (h : s.Mirrors X R good name r) (hc : (s.node n).get name = some c) :
    r.state n = c ∧ good c := by
  rcases h.node n with ⟨hget, hgood⟩ | ⟨hnone, _⟩
  · cases hc.symm.trans hget
    exact ⟨rfl, hgood⟩
  · rw [hnone] at hc
    cases hc

end

section
omit [FiniteFloat F] [DecidableEq F] [UnicodeData]

theorem Mirrors.setNode (h : s.Mirrors X R good name r) {n : ν} {x : CRDTReplicator κ σ}
    (hget : x.get name = (s.node n).get name) : (s.setNode n x).Mirrors X R good name r where
  node k := by
    rw [node_setNode]
    by_cases hk : k = n
    · subst hk
      rw [Function.update_self, hget]
      exact h.node k
    · rw [Function.update_of_ne hk]
      exact h.node k
  sent := h.sent

theorem Mirrors.update (h : s.Mirrors X R good name r) {n : ν} {x : CRDTReplicator κ σ}
    {r' : Replicas ν ω ρ σ} (hget : x.get name = some c) (hc : good c)
    (hstate : r'.state = Function.update r.state n c) (hshared : r'.shared = r.shared) :
    (s.setNode n x).Mirrors X R good name r' where
  node k := by
    rw [node_setNode, hstate]
    by_cases hk : k = n
    · subst hk
      rw [Function.update_self, Function.update_self]
      exact .inl ⟨hget, hc⟩
    · rw [Function.update_of_ne hk, Function.update_of_ne hk]
      exact h.node k
  sent := by
    rw [hshared]
    exact h.sent

end

section
omit [DecidableEq F]

theorem Mirrors.step {s' : ReplicatorSwarm ν κ σ F} {a : ReplicatorAction ν κ ω σ}
    (hX : Follows X R good) (h : s.Mirrors X R good name r) (hnew : RegistersNew R good name s a)
    (hs : s.step X a = some s') :
    ∃ past r', Run (Replicas.step R) r past r' ∧ s'.Mirrors X R good name r' ∧
      r'.log.map (fun e => (e.node, e.op)) =
        r.log.map (fun e => (e.node, e.op)) ++ performed name [(s, a)] := by
  rcases step_cases hs with ⟨n, name', crdt, onChange, rfl, rfl⟩ | ⟨n, name', op, x, rfl, hx, rfl⟩ |
    ⟨n, alive, drawn, rfl, rfl⟩ | ⟨i, m, rfl, hm, rfl⟩
  · refine ⟨[], r, .start, ?_, (List.append_nil _).symm⟩
    have hget := (s.node n).get_register name' name crdt onChange
    by_cases hk : name = name'
    · obtain ⟨rfl, hgood, hnone⟩ := hnew hk.symm
      rw [if_pos hk] at hget
      rcases h.node n with ⟨hsome, _⟩ | ⟨_, hinit⟩
      · rw [hnone] at hsome
        cases hsome
      · refine h.update hget hgood ?_ rfl
        rw [← hinit, Function.update_eq_self]
    · rw [if_neg hk] at hget
      exact h.setNode hget
  · obtain ⟨c, c', hc, hc', rfl⟩ := CRDTReplicator.performOn_spec hx
    have hget := Dict.get_set (s.node n).crdts name' name c'
    by_cases hk : name = name'
    · subst hk
      rw [if_pos rfl] at hget
      obtain ⟨rfl, hgood⟩ := h.state hc
      have hgood' := hX.good_perform hgood hc'
      rw [hX.perform] at hc'
      obtain ⟨⟨state, out⟩, hperform, rfl⟩ := Option.map_eq_some_iff.1 hc'
      have hstep : Replicas.step R r (.perform n op) = some { r with
          state := Function.update r.state n state
          known := Function.update r.known n (insert r.log.length (r.known n))
          log := r.log ++ [⟨n, op, out, r.known n⟩] } := by
        rw [Replicas.step, hperform]
        rfl
      refine ⟨_, _, Run.start.next hstep, h.update hget hgood' rfl rfl, ?_⟩
      rw [performed, if_pos rfl, List.map_append]
      rfl
    · rw [if_neg hk] at hget
      refine ⟨[], r, .start, h.setNode hget, ?_⟩
      rw [performed, if_neg (Ne.symm hk)]
      exact (List.append_nil _).symm
  · have hstep : Replicas.step R r (.share n) = some { r with
        shared := r.shared ++ [⟨n, r.state n, r.known n⟩] } := rfl
    refine ⟨_, _, Run.start.next hstep, ?_, (List.append_nil _).symm⟩
    refine ⟨(h.setNode (get_tick X (s.node n) alive drawn name)).node, fun m hm d hd => ?_⟩
    rcases List.mem_append.1 hm with hm | hm
    · obtain ⟨x, hx, hfields⟩ := h.sent m hm d hd
      exact ⟨x, List.mem_append_left _ hx, hfields⟩
    · obtain ⟨hsrc, hpayload⟩ := messages_tick X _ n alive drawn m hm
      obtain ⟨c, hc, rfl⟩ := hpayload name d hd
      obtain ⟨rfl, hgood⟩ := h.state hc
      exact ⟨_, List.mem_append_right _ List.mem_cons_self, hsrc.symm, hgood, rfl⟩
  · rcases ((s.node m.dst).synced_onSync X m.payload).get name with ⟨hget, _⟩ |
      ⟨c, d, hc, hd, hget⟩
    · exact ⟨[], r, .start, h.setNode hget, (List.append_nil _).symm⟩
    · obtain ⟨rfl, hgood⟩ := h.state hc
      obtain ⟨x, hx, _, hx', rfl⟩ := h.sent m (List.mem_of_getElem? hm) d hd
      obtain ⟨j, hj⟩ := List.mem_iff_getElem?.1 hx
      have hgood' := hX.good_apply hgood hx'
      rw [hX.apply hgood hx'] at hget hgood'
      have hstep : Replicas.step R r (.absorb m.dst j) = some { r with
          state := Function.update r.state m.dst (R.absorb (r.state m.dst) x.state)
          known := Function.update r.known m.dst (r.known m.dst ∪ x.known) } := by
        rw [Replicas.step, hj]
        rfl
      exact ⟨_, _, Run.start.next hstep, h.update hget hgood' rfl rfl, (List.append_nil _).symm⟩

end

section
omit [DecidableEq ν] [FiniteFloat F] [DecidableEq F] [UnicodeData]

theorem performed_cons (p : ReplicatorSwarm ν κ σ F × ReplicatorAction ν κ ω σ)
    (past : List (ReplicatorSwarm ν κ σ F × ReplicatorAction ν κ ω σ)) :
    performed name (p :: past) = performed name past ++ performed name [p] := by
  obtain ⟨t, a⟩ := p
  cases a with
  | perform n name' op =>
    rw [performed, performed]
    split
    · rfl
    · exact (List.append_nil _).symm
  | register n name' crdt onChange => exact (List.append_nil _).symm
  | tick n alive drawn => exact (List.append_nil _).symm
  | deliver i => exact (List.append_nil _).symm

end

section
omit [DecidableEq F]

/-- The objects that the replicators keep under a name are replicas of the replicated type, in some
run of it with the same local operations. -/
theorem replicators_refine {fanout fullSyncEvery : ν → ℕ} (hX : Follows X R good)
    (hrun : Run (step X) (init fanout fullSyncEvery) past s)
    (hnew : ∀ p ∈ past, RegistersNew R good name p.1 p.2) :
    ∃ past' r, Run (Replicas.step R) (Replicas.init R) past' r ∧ s.Mirrors X R good name r ∧
      r.log.map (fun e => (e.node, e.op)) = performed name past := by
  induction hrun with
  | start =>
    refine ⟨[], _, .start, ⟨fun n => .inr ⟨rfl, rfl⟩, fun m hm => by cases hm⟩, rfl⟩
  | @next past u a u' hr hs ih =>
    obtain ⟨past', r, hrun', hmirrors, hlog⟩ := ih
      (fun p hp => hnew p (List.mem_cons_of_mem _ hp))
    obtain ⟨past'', r', hrun'', hmirrors', hlog'⟩ :=
      hmirrors.step hX (hnew _ List.mem_cons_self) hs
    refine ⟨_, r', hrun'.append hrun'', hmirrors', ?_⟩
    rw [hlog', hlog, ← performed_cons]

end

end

end Replicate.ReplicatorSwarm

theorem PNCounter.follows {F : Type} [FiniteFloat F] [DecidableEq F] :
    Replicate.ReplicatorSwarm.Follows (PNCounter.crdt (F := F)) PNCounter.replicaType
      PNCounter.Nonneg where
  perform _ _ := rfl
  good_perform hc h := (PNCounter.joins.perform hc h).1
  apply _ _ := by
    rw [PNCounter.crdt_apply]
    rfl
  good_apply ha hb := (PNCounter.joins.apply ha hb).1

namespace Replicate.ReplicatorSwarm

/-- A counter counts at one node and is sent to another. -/
def sentCounter : List (ReplicatorAction PyStr Unit CounterOp (PNCounter PyStr)) :=
  [.register [97] () (.init [97]) none, .register [98] () (.init [98]) none,
    .perform [97] () (.increment 3), .tick [97] [[98]] [], .deliver 0]

def sentCounterPast [UnicodeData] : List (ReplicatorSwarm PyStr Unit (PNCounter PyStr) ℕ ×
    ReplicatorAction PyStr Unit CounterOp (PNCounter PyStr)) :=
  execPast (step PNCounter.crdt) (init (fun _ => 2) (fun _ => 20)) [] sentCounter

theorem replicators_refine_of_sentCounter : ∃ (_ : UnicodeData) (past : _)
    (s : ReplicatorSwarm PyStr Unit (PNCounter PyStr) ℕ),
    Run (step PNCounter.crdt) (init (fun _ => 2) (fun _ => 20)) past s ∧
      ∃ past' r, Run (Replicas.step (PNCounter.replicaType (ν := PyStr)))
        (Replicas.init PNCounter.replicaType) past' r ∧ (r.state ([98] : PyStr)).value = 3 ∧
        r.log.map (fun e => (e.node, e.op)) = [(([97] : PyStr), .increment 3)] := by
  have data : UnicodeData := ⟨fun _ => false, fun _ _ => rfl, fun _ _ => rfl⟩
  have hrun : Run (step (PNCounter.crdt (F := ℕ))) (init (fun _ : PyStr => 2) (fun _ => 20))
    sentCounterPast _ := Run.start.exec rfl
  have hreg : ∀ p ∈ sentCounterPast,
      RegistersNew PNCounter.replicaType PNCounter.Nonneg () p.1 p.2 := by
    have hnew : ∀ n, (PNCounter.init n).Nonneg := fun n m => ⟨le_rfl, le_rfl⟩
    refine List.forall_mem_cons.2 ⟨trivial, List.forall_mem_cons.2 ⟨trivial,
      List.forall_mem_cons.2 ⟨trivial, ?_⟩⟩⟩
    exact List.forall_mem_cons.2 ⟨fun _ => ⟨rfl, hnew _, rfl⟩,
      List.forall_mem_cons.2 ⟨fun _ => ⟨rfl, hnew _, rfl⟩, fun p hp => by cases hp⟩⟩
  obtain ⟨past', r, hrun', hmirrors, hlog⟩ :=
    replicators_refine (PNCounter.follows (F := ℕ)) hrun hreg
  refine ⟨data, _, _, hrun, past', r, hrun', ?_, hlog⟩
  rw [(hmirrors.state (n := [98]) rfl).1]
  decide

end Replicate.ReplicatorSwarm

end Suprime
