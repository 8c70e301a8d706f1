import Suprime.TrainingDescent

namespace Suprime
set_option autoImplicit true

open Matrix

/-- The learners of the nodes, by node id; each keeps the models that it has sent. -/
structure LearnerSwarm (dim : ℕ) where
  node : String → GossipLearner ℚ dim

/-- A model that was sent may be delivered late, out of order, more than once or never. -/
inductive LearnerSwarmAction
  | tick (n : String) (alive : List String) (pick : ℕ)
  | deliver (n : String) (i : ℕ)

/-- The data, learning rate and local steps of a node, and the loss that it starts with. -/
structure LearnerConfig (dim : ℕ) where
  data : List (Sample ℚ dim)
  lr : ℚ
  steps : ℕ
  lastLoss : ℚ

namespace LearnerSwarm

variable {dim : ℕ}

def init (config : String → LearnerConfig dim) : LearnerSwarm dim where
  node n := .init (config n).data (config n).lr (config n).steps (config n).lastLoss

def setNode (s : LearnerSwarm dim) (n : String) (l : GossipLearner ℚ dim) : LearnerSwarm dim where
  node := Function.update s.node n l

def step (s : LearnerSwarm dim) : LearnerSwarmAction → Option (LearnerSwarm dim)
  | .tick n alive pick => do
    let l ← (s.node n).tick alive pick
    some (s.setNode n l)
  | .deliver n i => do
    let m ← (s.node n).sent[i]?
    some (s.setNode m.1 ((s.node m.1).onSync m.2.w m.2.b))

end LearnerSwarm

namespace LearnerConfig

variable {dim : ℕ}

/-- A learning rate that the features allow: it is at most the number of samples over the sum of
the squares of all features, those of the bias included. -/
def Gentle (c : LearnerConfig dim) : Prop :=
  0 ≤ c.lr ∧ c.lr * LeastSquares.size (LinearModel.design c.data) ≤ c.data.length

def Fits (c : LearnerConfig dim) (θ : Option (Fin dim) → ℚ) : Prop :=
  ∀ s ∈ c.data, LinearModel.features s ⬝ᵥ θ = s.y

theorem Fits.mulVec {c : LearnerConfig dim} {θ : Option (Fin dim) → ℚ} (h : c.Fits θ) :
    LinearModel.design c.data *ᵥ θ = LinearModel.labels c.data :=
  funext fun i => h _ (List.getElem_mem i.2)

theorem Gentle.step_le {c : LearnerConfig dim} (h : c.Gentle) :
    0 ≤ c.lr * (2 / c.data.length) ∧
      c.lr * (2 / c.data.length) * LeastSquares.size (LinearModel.design c.data) ≤ 2 := by
  have hn : (0 : ℚ) ≤ c.data.length := Nat.cast_nonneg _
  refine ⟨mul_nonneg h.1 (div_nonneg (by norm_num) hn), ?_⟩
  rcases hn.eq_or_lt with hzero | hpos
  · rw [← hzero, div_zero, mul_zero, zero_mul]
    norm_num
  · have hdiv := div_le_one_of_le₀ h.2 hn
    calc c.lr * (2 / c.data.length) * LeastSquares.size (LinearModel.design c.data)
        = 2 * (c.lr * LeastSquares.size (LinearModel.design c.data) / c.data.length) := by ring
      _ ≤ 2 := by linarith

end LearnerConfig

namespace GossipLearner

variable {dim : ℕ}

/-- What a learner keeps of its configuration. -/
structure Configured (l : GossipLearner ℚ dim) (c : LearnerConfig dim) : Prop where
  data : l.data = c.data
  lr : l.lr = c.lr
  steps : l.steps = c.steps
  shape : l.model.w.length = dim
  sent : ∀ p ∈ l.sent, p.2.w.length = dim

/-- A property of models that a gradient step keeps holds after the local steps of a round. -/
theorem Configured.train {l : GossipLearner ℚ dim} {c : LearnerConfig dim} (h : l.Configured c)
    {P : LinearModel ℚ → Prop}
    (hP : ∀ m m' loss, m.w.length = dim → m.sgdStep c.data c.lr = some (m', loss) → P m → P m')
    (hl : P l.model) (steps : ℕ) :
    (l.train steps).2 = true ∧ (l.train steps).1.Configured c ∧
      (l.train steps).1.sent = l.sent ∧ P (l.train steps).1.model := by
  induction steps generalizing l with
  | zero => exact ⟨rfl, h, rfl, hl⟩
  | succ steps ih =>
    obtain ⟨m, hstep, hlen, _⟩ := l.model.sgdStep_eq c.data c.lr h.shape
    rw [GossipLearner.train, h.data, h.lr, hstep]
    exact ih ⟨rfl, rfl, h.steps, hlen, h.sent⟩ (hP _ _ _ h.shape hstep hl)

theorem Configured.tick {l l' : GossipLearner ℚ dim} {c : LearnerConfig dim} (h : l.Configured c)
    {P : LinearModel ℚ → Prop}
    (hP : ∀ m m' loss, m.w.length = dim → m.sgdStep c.data c.lr = some (m', loss) → P m → P m')
    (hl : P l.model) (ht : l.tick alive pick = some l') :
    l'.Configured c ∧ P l'.model ∧ (l'.sent = l.sent ∨
      ∃ target, l'.sent = l.sent ++ [(target, l'.model)]) := by
  obtain ⟨hends, hconf, hsent, hmodel⟩ := h.train hP hl l.steps
  rw [GossipLearner.tick] at ht
  generalize l.train l.steps = r at ht hends hconf hsent hmodel
  obtain ⟨l₁, ends⟩ := r
  cases hends
  dsimp only at ht hconf hsent hmodel
  split at ht
  · cases ht
    exact ⟨hconf, hmodel, .inl hsent⟩
  · obtain ⟨target, _, ht⟩ := Option.bind_eq_some_iff.1 ht
    cases ht
    refine ⟨⟨hconf.data, hconf.lr, hconf.steps, hconf.shape, ?_⟩, hmodel,
      .inr ⟨target, by rw [← hsent]⟩⟩
    intro p hp
    rcases List.mem_append.1 hp with hp | hp
    · exact hconf.sent p hp
    · rw [List.mem_singleton.1 hp]
      exact hconf.shape

theorem Configured.onSync {l : GossipLearner ℚ dim} {c : LearnerConfig dim} (h : l.Configured c)
    {m : LinearModel ℚ} (hm : m.w.length = dim) :
    (l.onSync m.w m.b).Configured c ∧ (l.onSync m.w m.b).sent = l.sent ∧
      (l.onSync m.w m.b).model.vec dim = (2 : ℚ)⁻¹ • (l.model.vec dim + m.vec dim) := by
  obtain ⟨m', havg, hlen, hvec⟩ := l.model.averageWith_eq m h.shape hm
  have hsync : l.onSync m.w m.b = { l with model := m' } := by
    have hb : (FloatArith.ofNumber m.b : Option ℚ) = some m.b := rfl
    rw [GossipLearner.onSync, hb, Option.bind_some, havg]
  rw [hsync]
  exact ⟨⟨h.data, h.lr, h.steps, hlen, h.sent⟩, rfl, hvec⟩

end GossipLearner

namespace LearnerSwarm

variable {dim : ℕ} {config : String → LearnerConfig dim}

/-- Every learner keeps its configuration. -/
def Ok (config : String → LearnerConfig dim) (s : LearnerSwarm dim) : Prop :=
  ∀ n, (s.node n).Configured (config n)

/-- A property of all models, those of the nodes and those that were sent. -/
def Everywhere (P : LinearModel ℚ → Prop) (s : LearnerSwarm dim) : Prop :=
  ∀ n, P (s.node n).model ∧ ∀ p ∈ (s.node n).sent, P p.2

theorem Ok.init : (init config).Ok config := fun n =>
  ⟨rfl, rfl, rfl, List.length_replicate, fun p hp => by cases hp⟩

theorem forall_setNode {s : LearnerSwarm dim} {Q : String → GossipLearner ℚ dim → Prop}
    (h : ∀ k, Q k (s.node k)) (hl : Q n l) (k : String) : Q k ((s.setNode n l).node k) := by
  change Q k (Function.update s.node n l k)
  by_cases hk : k = n
  · subst hk
    rw [Function.update_self]
    exact hl
  · rw [Function.update_of_ne hk]
    exact h k

theorem Ok.setNode {s : LearnerSwarm dim} (h : s.Ok config) (hl : l.Configured (config n)) :
    (s.setNode n l).Ok config :=
  forall_setNode (Q := fun k l => l.Configured (config k)) h hl

theorem Everywhere.setNode {s : LearnerSwarm dim} {P : LinearModel ℚ → Prop}
    (h : s.Everywhere P) (hl : P l.model ∧ ∀ p ∈ l.sent, P p.2) :
    (s.setNode n l).Everywhere P :=
  forall_setNode (Q := fun _ l => P l.model ∧ ∀ p ∈ l.sent, P p.2) h hl

/-- What a gradient step at every node and every averaging keeps holds of all models after a step
of the swarm. -/
theorem Everywhere.step {s s' : LearnerSwarm dim} {P : LinearModel ℚ → Prop} (hok : s.Ok config)
    (hsgd : ∀ n m m' loss, m.w.length = dim →
      m.sgdStep (config n).data (config n).lr = some (m', loss) → P m → P m')
    (havg : ∀ m m' : LinearModel ℚ, ∀ m'' : LinearModel ℚ,
      m''.vec dim = (2 : ℚ)⁻¹ • (m.vec dim + m'.vec dim) → P m → P m' → P m'')
    (h : s.Everywhere P) (hs : s.step a = some s') : s'.Ok config ∧ s'.Everywhere P := by
  cases a with
  | tick n alive pick =>
    obtain ⟨l, hl, hs⟩ := Option.bind_eq_some_iff.1 hs
    cases hs
    obtain ⟨hconf, hmodel, hsent⟩ := (hok n).tick (hsgd n) (h n).1 hl
    refine ⟨hok.setNode hconf, h.setNode ⟨hmodel, fun p hp => ?_⟩⟩
    rcases hsent with hsent | ⟨target, hsent⟩
    · rw [hsent] at hp
      exact (h n).2 p hp
    · rw [hsent] at hp
      rcases List.mem_append.1 hp with hp | hp
      · exact (h n).2 p hp
      · rw [List.mem_singleton.1 hp]
        exact hmodel
  | deliver n i =>
    obtain ⟨m, hm, hs⟩ := Option.bind_eq_some_iff.1 hs
    cases hs
    have hmem := List.mem_of_getElem? hm
    obtain ⟨hconf, hsent, hvec⟩ := (hok m.1).onSync ((hok n).sent m hmem)
    refine ⟨hok.setNode hconf, h.setNode ⟨havg _ _ _ hvec (h m.1).1 ((h n).2 m hmem), ?_⟩⟩
    rw [hsent]
    exact (h m.1).2

/-- The square of the distance between a model and a point. -/
def dist (θ : Option (Fin dim) → ℚ) (m : LinearModel ℚ) : ℚ :=
  (m.vec dim - θ) ⬝ᵥ (m.vec dim - θ)

theorem vec_init : (LinearModel.init dim : LinearModel ℚ).vec dim = 0 := by
  ext i
  cases i with
  | none => rfl
  | some i =>
    change (List.replicate dim (0 : ℚ)).getD i 0 = 0
    rw [List.getD_eq_getElem _ _ (by rw [List.length_replicate]; exact i.2),
      List.getElem_replicate]

theorem dist_run {s s' : LearnerSwarm dim} {θ : Option (Fin dim) → ℚ}
    (hgentle : ∀ n, (config n).Gentle) (hfit : ∀ n, (config n).Fits θ) (hok : s.Ok config)
    (h : s.Everywhere (dist θ · ≤ B)) (hrun : Run step s past s') :
    s'.Ok config ∧ s'.Everywhere (dist θ · ≤ B) := by
  apply hrun.invariant (I := fun s => s.Ok config ∧ s.Everywhere (dist θ · ≤ B))
    (C := fun _ _ => True) (fun _ _ => trivial) ⟨hok, h⟩
  intro s a s' hs _ hstep
  refine Everywhere.step hs.1 ?_ ?_ hs.2 hstep
  · intro n m m' loss hm hsgd hdist
    obtain ⟨m₁, hstep, _, hvec⟩ := m.sgdStep_eq (config n).data (config n).lr hm
    cases hsgd.symm.trans hstep
    obtain ⟨hnonneg, hsize⟩ := (hgentle n).step_le
    rw [dist, hvec]
    exact (LeastSquares.dist_step_le (hfit n).mulVec _ hnonneg hsize).trans hdist
  · intro m m' m'' hvec hm hm'
    rw [dist, hvec]
    exact LeastSquares.dist_middle_le hm hm'

/-- Where one model fits the data of all nodes and the learning rates are small enough, the largest
distance of any model from it, of a node or under way, never grows, and it never exceeds the
distance that all nodes start with. -/
theorem models_never_drift {s s' : LearnerSwarm dim} {θ : Option (Fin dim) → ℚ}
    (hgentle : ∀ n, (config n).Gentle) (hfit : ∀ n, (config n).Fits θ)
    (hrun : Run step (init config) pre s) (hrun' : Run step s past s') :
    s.Everywhere (dist θ · ≤ θ ⬝ᵥ θ) ∧
      ∀ B, s.Everywhere (dist θ · ≤ B) → s'.Everywhere (dist θ · ≤ B) := by
  have hstart : (init config).Everywhere (dist θ · ≤ θ ⬝ᵥ θ) := by
    intro n
    refine ⟨?_, fun p hp => by cases hp⟩
    change dist θ (LinearModel.init dim) ≤ _
    rw [dist, vec_init, zero_sub, neg_dotProduct, dotProduct_neg, neg_neg]
  obtain ⟨hok, hs⟩ := dist_run hgentle hfit Ok.init hstart hrun
  exact ⟨hs, fun B hB => (dist_run hgentle hfit hok hB hrun').2⟩

theorem error_tick {l l' : GossipLearner ℚ dim} {c : LearnerConfig dim} (hc : c.Gentle)
    (h : l.Configured c) (ht : l.tick alive pick = some l') :
    l'.model.error c.data ≤ l.model.error c.data := by
  refine (h.tick (P := fun m => m.error c.data ≤ l.model.error c.data) ?_ le_rfl ht).2.1
  intro m m' loss hm hsgd hle
  obtain ⟨m₁, hstep, _, hvec⟩ := m.sgdStep_eq c.data c.lr hm
  cases hsgd.symm.trans hstep
  obtain ⟨hnonneg, hsize⟩ := hc.step_le
  rw [LinearModel.error, hvec]
  exact (LeastSquares.sse_step_le _ _ _ hnonneg hsize).trans hle

/-- In every run the local training of a node never makes its error on its own data larger, and a
model that arrives leaves the error at most the larger of the two. -/
theorem training_descends {s s' : LearnerSwarm dim} (hgentle : ∀ n, (config n).Gentle)
    (hrun : Run step (init config) past s) (hs : s.step a = some s') :
    (∀ n alive pick, a = .tick n alive pick →
      (s'.node n).model.error (config n).data ≤ (s.node n).model.error (config n).data) ∧
    ∀ n i target m, a = .deliver n i → (s.node n).sent[i]? = some (target, m) →
      (s'.node target).model.error (config target).data ≤
        max ((s.node target).model.error (config target).data) (m.error (config target).data) := by
  have hok : s.Ok config := hrun.invariant (I := Ok config) (C := fun _ _ => True)
    (fun _ _ => trivial) Ok.init (fun s a s' hok _ hstep =>
      (Everywhere.step (P := fun _ => True) hok (fun _ _ _ _ _ _ _ => trivial)
        (fun _ _ _ _ _ _ => trivial) (fun _ => ⟨trivial, fun _ _ => trivial⟩) hstep).1)
  constructor
  · rintro n alive pick rfl
    obtain ⟨l, hl, hs⟩ := Option.bind_eq_some_iff.1 hs
    cases hs
    change (Function.update s.node n l n).model.error _ ≤ _
    rw [Function.update_self]
    exact error_tick (hgentle n) (hok n) hl
  · rintro n i target m rfl hm
    obtain ⟨m', hm', hs⟩ := Option.bind_eq_some_iff.1 hs
    cases hm.symm.trans hm'
    cases hs
    obtain ⟨_, _, hvec⟩ := (hok target).onSync ((hok n).sent _ (List.mem_of_getElem? hm))
    change (Function.update s.node target ((s.node target).onSync m.w m.b)
      target).model.error _ ≤ _
    rw [Function.update_self, LinearModel.error, hvec]
    exact LeastSquares.sse_middle_le _ _ (le_max_left _ _) (le_max_right _ _)

/-- Two nodes with one feature, whose samples lie on one line. -/
def twoLearners (n : String) : LearnerConfig 1 :=
  if n = "a" then ⟨[⟨[1], 3, rfl⟩], 1 / 4, 2, 0⟩ else ⟨[⟨[2], 5, rfl⟩, ⟨[0], 1, rfl⟩], 1 / 4, 1, 0⟩

def line : Option (Fin 1) → ℚ := fun o => if o = none then 1 else 2

theorem gentle_twoLearners (n : String) : (twoLearners n).Gentle := by
  unfold twoLearners
  split
  · exact ⟨by decide +kernel, by decide +kernel⟩
  · exact ⟨by decide +kernel, by decide +kernel⟩

theorem fits_twoLearners (n : String) : (twoLearners n).Fits line := by
  unfold twoLearners
  split
  · intro s hs
    rw [List.mem_singleton.1 hs]
    decide +kernel
  · intro s hs
    rcases List.mem_cons.1 hs with rfl | hs
    · decide +kernel
    · rw [List.mem_singleton.1 hs]
      decide +kernel

theorem models_never_drift_of_twoLearners : ∃ past s, Run step (init twoLearners) past s ∧
    s.Everywhere (dist line · ≤ 5) ∧ (s.node "b").model = ⟨[3 / 4], 3 / 4⟩ := by
  obtain ⟨past, s, hrun, hs⟩ := exists_run_of_exec step (init twoLearners)
    [.tick "a" ["b"] 0, .deliver "a" 0] (fun s => (s.node "b").model) ⟨[3 / 4], 3 / 4⟩
    (by decide +kernel)
  obtain ⟨hstart, hall⟩ :=
    models_never_drift (θ := line) gentle_twoLearners fits_twoLearners .start hrun
  have hnorm : line ⬝ᵥ line = 5 := by decide +kernel
  rw [hnorm] at hstart
  exact ⟨past, s, hrun, hall 5 hstart, hs⟩

theorem training_descends_of_twoLearners : ∃ past s s', Run step (init twoLearners) past s ∧
    s.step (.tick "a" ["b"] 0) = some s' ∧ (s'.node "a").model = ⟨[3 / 2], 3 / 2⟩ ∧
    (s'.node "a").model.error (twoLearners "a").data ≤
      (s.node "a").model.error (twoLearners "a").data := by
  have hstep : ((init twoLearners).step (.tick "a" ["b"] 0)).map (fun s => (s.node "a").model) =
      some ⟨[3 / 2], 3 / 2⟩ := by decide +kernel
  obtain ⟨s', hs, hmodel⟩ := Option.map_eq_some_iff.1 hstep
  exact ⟨[], _, s', .start, hs, hmodel,
    (training_descends gentle_twoLearners .start hs).1 "a" ["b"] 0 rfl⟩

end LearnerSwarm

end Suprime
