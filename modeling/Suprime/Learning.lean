import Mathlib.Data.Rat.Defs
import Suprime.Run

namespace Suprime
set_option autoImplicit true

/-- Floats, and the numbers of a message. A number may be too large for a float, and then its
conversion raises. -/
class FloatArith (F : Type) (N : outParam Type) where
  zero : F
  two : F
  ofLen : ℕ → F
  add : F → F → F
  sub : F → F → F
  mul : F → F → F
  div : F → F → F
  ofNumber : N → Option F

open FloatArith

/-- A sample with as many features as the model has dimensions. -/
structure Sample (F : Type) (dim : ℕ) where
  x : List F
  y : F
  length_eq : x.length = dim

structure LinearModel (F : Type) where
  w : List F
  b : F
  deriving DecidableEq

/-- The sums of one gradient step. -/
structure Gradient (F : Type) where
  w : List F
  b : F
  sse : F

namespace LinearModel

variable {F N : Type} [FloatArith F N] {dim : ℕ}

def init (dim : ℕ) : LinearModel F := ⟨List.replicate dim zero, zero⟩

/-- `pred += w[i] * x[i]`, which raises an IndexError if the features run out. -/
def addTerm (m : LinearModel F) (x : List F) (pred : F) (i : ℕ) : Option F := do
  let wi ← m.w[i]?
  let xi ← x[i]?
  some (add pred (mul wi xi))

/-- The prediction of `sgd_step`. -/
def predictAt (m : LinearModel F) (x : List F) : Option F := do
  let pred ← (List.range m.w.length).foldlM (m.addTerm x) zero
  some (add pred m.b)

/-- `grad_w[i] += err_factor * x[i]`, which raises an IndexError if the gradient is shorter. -/
def addFeature (errFactor : F) (x gradW : List F) (i : ℕ) : Option (List F) := do
  let gi ← gradW[i]?
  let xi ← x[i]?
  some (gradW.set i (add gi (mul errFactor xi)))

def addSample (m : LinearModel F) (n : F) (g : Gradient F) (s : Sample F dim) :
    Option (Gradient F) := do
  let pred ← m.predictAt s.x
  let err := sub pred s.y
  let errFactor := div (mul two err) n
  let gradW ← (List.range s.x.length).foldlM (addFeature errFactor s.x) g.w
  some ⟨gradW, add g.b errFactor, add g.sse (mul err err)⟩

/-- The end of a gradient step. -/
def descend (m : LinearModel F) (lr : F) (g : Gradient F) : LinearModel F :=
  ⟨(m.w.zip g.w).map (fun p => sub p.1 (mul lr p.2)), sub m.b (mul lr g.b)⟩

/-- The model and the mean squared error before the step, or nothing at an IndexError. -/
def sgdStep (m : LinearModel F) (data : List (Sample F dim)) (lr : F) :
    Option (LinearModel F × F) :=
  if data.length = 0 then some (m, zero)
  else do
    let n : F := ofLen data.length
    let g ← data.foldlM (m.addSample n) ⟨List.replicate m.w.length zero, zero, zero⟩
    some (m.descend lr g, div g.sse n)

/-- `average_with`, which raises before it assigns if a number is too large. -/
def averageWith (m : LinearModel F) (otherW : List N) (otherB : F) : Option (LinearModel F) := do
  let w ← (m.w.zip otherW).mapM (fun p => (ofNumber p.2).map (fun y => div (add p.1 y) two))
  some ⟨w, div (add m.b otherB) two⟩

end LinearModel

/-- A learner. The last two fields are history: the models that were sent, and how often a tick
ended in an IndexError. -/
structure GossipLearner (F : Type) (dim : ℕ) where
  model : LinearModel F
  data : List (Sample F dim)
  lr : F
  steps : ℕ
  lastLoss : F
  sent : List (String × LinearModel F)
  indexErrors : ℕ

/-- A tick with the peers that are alive and the random choice among them, or a MODEL_SYNC. -/
inductive LearnerAction (N : Type)
  | tick (alive : List String) (pick : ℕ)
  | sync (w : List N) (b : N)

namespace GossipLearner

variable {F N : Type} [FloatArith F N] {dim : ℕ}

def init (data : List (Sample F dim)) (lr : F) (steps : ℕ) (lastLoss : F) : GossipLearner F dim :=
  ⟨.init dim, data, lr, steps, lastLoss, [], 0⟩

/-- The local steps of a round, and whether they came to an end. -/
def train (l : GossipLearner F dim) : ℕ → GossipLearner F dim × Bool
  | 0 => (l, true)
  | steps + 1 =>
    match l.model.sgdStep l.data l.lr with
    | none => ({ l with indexErrors := l.indexErrors + 1 }, false)
    | some (model, loss) => { l with model := model, lastLoss := loss }.train steps

/-- `_tick`: an exception of the training ends it. -/
def tick (l : GossipLearner F dim) (alive : List String) (pick : ℕ) :
    Option (GossipLearner F dim) :=
  match l.train l.steps with
  | (l, false) => some l
  | (l, true) =>
    if alive = [] then some l
    else do
      let target ← alive[pick]?
      some { l with sent := l.sent ++ [(target, l.model)] }

/-- `_on_sync`: a number that is too large ends it. -/
def onSync (l : GossipLearner F dim) (w : List N) (b : N) : GossipLearner F dim :=
  match (ofNumber b).bind (l.model.averageWith w) with
  | none => l
  | some model => { l with model := model }

def step (l : GossipLearner F dim) : LearnerAction N → Option (GossipLearner F dim)
  | .tick alive pick => l.tick alive pick
  | .sync w b => some (l.onSync w b)

/-- The weights of a message are as many as the dimension at least, or a number of the message is
too large for a float. -/
def Conforms (_ : GossipLearner F dim) : LearnerAction N → Prop
  | .tick _ _ => True
  | .sync w b => dim ≤ w.length ∨ (ofNumber b : Option F) = none ∨
      ∃ x ∈ w, (ofNumber x : Option F) = none

/-- The model has its dimension, and no step has indexed out of range. -/
structure Shaped (l : GossipLearner F dim) : Prop where
  length_eq : l.model.w.length = dim
  noError : l.indexErrors = 0

end GossipLearner

/-- A loop that may raise comes to its end when no step of it raises while its invariant holds. -/
theorem exists_foldlM {step : S → α → Option S} {I : S → Prop} {l : List α} (h : I s)
    (hstep : ∀ s, I s → ∀ a ∈ l, ∃ s', step s a = some s' ∧ I s') :
    ∃ s', l.foldlM step s = some s' ∧ I s' := by
  induction l generalizing s with
  | nil => exact ⟨s, rfl, h⟩
  | cons a l ih =>
    obtain ⟨s₁, hs₁, h₁⟩ := hstep s h a List.mem_cons_self
    obtain ⟨s', hs', h'⟩ := ih h₁ (fun s hs b hb => hstep s hs b (List.mem_cons_of_mem _ hb))
    exact ⟨s', by rw [List.foldlM_cons, hs₁]; exact hs', h'⟩

theorem mapM_cases (f : β → Option γ) (l : List β) :
    (∃ r, l.mapM f = some r ∧ r.length = l.length ∧ ∀ a ∈ l, f a ≠ none) ∨
      l.mapM f = none ∧ ∃ a ∈ l, f a = none := by
  induction l with
  | nil => exact .inl ⟨[], rfl, rfl, List.forall_mem_nil _⟩
  | cons a l ih =>
    rw [List.mapM_cons]
    cases ha : f a with
    | none => exact .inr ⟨rfl, a, List.mem_cons_self, ha⟩
    | some b =>
      rcases ih with ⟨r, hr, hlen, hall⟩ | ⟨hnone, c, hc, hbad⟩
      · refine .inl ⟨b :: r, ?_, congrArg Nat.succ hlen, ?_⟩
        · rw [hr]
          rfl
        · intro c hc
          rcases List.mem_cons.1 hc with rfl | hc
          · rw [ha]
            exact Option.some_ne_none b
          · exact hall c hc
      · refine .inr ⟨?_, c, List.mem_cons_of_mem _ hc, hbad⟩
        rw [hnone]
        rfl

namespace LinearModel

variable {F N : Type} [FloatArith F N] {dim : ℕ}

theorem exists_predictAt (m : LinearModel F) {x : List F} (hx : m.w.length ≤ x.length) :
    ∃ y, m.predictAt x = some y := by
  have hterm : ∀ pred : F, True → ∀ i ∈ List.range m.w.length,
      ∃ pred', m.addTerm x pred i = some pred' ∧ True := by
    intro pred _ i hi
    have hlt := List.mem_range.1 hi
    refine ⟨add pred (mul m.w[i] x[i]), ?_, trivial⟩
    rw [addTerm, List.getElem?_eq_getElem hlt, List.getElem?_eq_getElem (hlt.trans_le hx)]
    rfl
  obtain ⟨pred, hpred, _⟩ := exists_foldlM (s := zero) trivial hterm
  exact ⟨_, by rw [predictAt, hpred]; rfl⟩

theorem exists_addFeatures (errFactor : F) {x gradW : List F} (hx : x.length ≤ gradW.length) :
    ∃ gradW', (List.range x.length).foldlM (addFeature errFactor x) gradW = some gradW' ∧
      gradW'.length = gradW.length := by
  apply exists_foldlM (I := fun g : List F => g.length = gradW.length) (s := gradW) rfl
  intro g hg i hi
  have hlt := List.mem_range.1 hi
  have hlt' : i < g.length := by
    rw [hg]
    exact hlt.trans_le hx
  refine ⟨g.set i (add g[i] (mul errFactor x[i])), ?_, ?_⟩
  · rw [addFeature, List.getElem?_eq_getElem hlt', List.getElem?_eq_getElem hlt]
    rfl
  · rw [List.length_set, hg]

theorem exists_addSample (m : LinearModel F) (n : F) {g : Gradient F} (s : Sample F dim)
    (hm : m.w.length = dim) (hg : g.w.length = dim) :
    ∃ g', m.addSample n g s = some g' ∧ g'.w.length = dim := by
  have hx := s.length_eq
  obtain ⟨pred, hpred⟩ := m.exists_predictAt (show m.w.length ≤ s.x.length by rw [hm, hx])
  let err := sub pred s.y
  let errFactor := div (mul two err) n
  obtain ⟨gradW, hgradW, hlen⟩ :=
    exists_addFeatures errFactor (show s.x.length ≤ g.w.length by rw [hg, hx])
  refine ⟨⟨gradW, add g.b errFactor, add g.sse (mul err err)⟩, ?_, hlen.trans hg⟩
  rw [addSample, hpred, Option.bind_eq_bind, Option.bind_some]
  dsimp only
  rw [hgradW]
  rfl

theorem exists_sgdStep (m : LinearModel F) (data : List (Sample F dim)) (lr : F)
    (hm : m.w.length = dim) :
    ∃ m' loss, m.sgdStep data lr = some (m', loss) ∧ m'.w.length = dim := by
  unfold sgdStep
  split
  · exact ⟨m, zero, rfl, hm⟩
  · have hstart : (List.replicate m.w.length (zero : F)).length = dim := by
      rw [List.length_replicate, hm]
    obtain ⟨g, hg, hlen⟩ := exists_foldlM (l := data) (I := fun g : Gradient F => g.w.length = dim)
      (s := ⟨List.replicate m.w.length zero, zero, zero⟩) hstart
      (fun g hg s _ => m.exists_addSample (ofLen data.length) s hm hg)
    refine ⟨m.descend lr g, div g.sse (ofLen data.length), ?_, ?_⟩
    · dsimp only
      rw [hg]
      rfl
    · rw [descend, List.length_map, List.length_zip, hm, hlen, min_self]

/-- Averaging with enough numbers keeps the dimension. It raises if one of them is too large. -/
theorem averageWith_cases (m : LinearModel F) (otherW : List N) (otherB : F) :
    (∃ m', m.averageWith otherW otherB = some m' ∧
      m'.w.length = min m.w.length otherW.length ∧
      ∀ p ∈ m.w.zip otherW, (ofNumber p.2 : Option F) ≠ none) ∨
    m.averageWith otherW otherB = none ∧
      ∃ p ∈ m.w.zip otherW, (ofNumber p.2 : Option F) = none := by
  unfold averageWith
  rcases mapM_cases (fun p : F × N => (ofNumber p.2).map (fun y => div (add p.1 y) two))
    (m.w.zip otherW) with ⟨w, hw, hlen, hall⟩ | ⟨hnone, p, hp, hbad⟩
  · refine .inl ⟨⟨w, div (add m.b otherB) two⟩, ?_, ?_, ?_⟩
    · rw [hw]
      rfl
    · rw [hlen, List.length_zip]
    · intro p hp hbad
      exact hall p hp (by rw [hbad]; rfl)
  · refine .inr ⟨?_, p, hp, Option.map_eq_none_iff.1 hbad⟩
    rw [hnone]
    rfl

end LinearModel

namespace GossipLearner

variable {F N : Type} [FloatArith F N] {dim : ℕ}

theorem Shaped.train {l : GossipLearner F dim} (h : l.Shaped) (steps : ℕ) :
    (l.train steps).2 = true ∧ (l.train steps).1.Shaped := by
  induction steps generalizing l with
  | zero => exact ⟨rfl, h⟩
  | succ steps ih =>
    obtain ⟨m, loss, hstep, hlen⟩ := l.model.exists_sgdStep l.data l.lr h.length_eq
    rw [GossipLearner.train, hstep]
    exact ih ⟨hlen, h.noError⟩

theorem Shaped.tick {l l' : GossipLearner F dim} (h : l.Shaped)
    (hs : l.tick alive pick = some l') : l'.Shaped := by
  obtain ⟨hends, hshaped⟩ := h.train l.steps
  rw [GossipLearner.tick] at hs
  generalize l.train l.steps = r at hs hends hshaped
  obtain ⟨l₁, ends⟩ := r
  cases hends
  dsimp only at hs
  split at hs
  · cases hs
    exact hshaped
  · obtain ⟨target, _, hs⟩ := Option.bind_eq_some_iff.1 hs
    cases hs
    exact ⟨hshaped.length_eq, hshaped.noError⟩

theorem Shaped.onSync_iff {l : GossipLearner F dim} (h : l.Shaped) (w : List N) (b : N) :
    (l.onSync w b).Shaped ↔ l.Conforms (.sync w b) := by
  unfold GossipLearner.onSync
  cases hb : (ofNumber b : Option F) with
  | none => exact iff_of_true h (.inr (.inl hb))
  | some y =>
    rw [Option.bind_some]
    rcases l.model.averageWith_cases w y with ⟨m, hm, hlen, hall⟩ | ⟨hnone, p, hp, hbad⟩
    · rw [hm]
      constructor
      · intro h'
        have hmin : min l.model.w.length w.length = dim := hlen.symm.trans h'.length_eq
        rw [h.length_eq] at hmin
        exact .inl (hmin.symm.trans_le (min_le_right _ _))
      · intro hc
        have hle : dim ≤ w.length := by
          rcases hc with hle | hnone | ⟨x, hx, hbad⟩
          · exact hle
          · rw [hb] at hnone
            cases hnone
          · -- a short list is read to its end, also the number that is too large
            by_contra hlt
            rw [not_le] at hlt
            have hsnd : (l.model.w.zip w).map Prod.snd = w :=
              List.map_snd_zip (by rw [h.length_eq]; exact hlt.le)
            rw [← hsnd] at hx
            obtain ⟨p, hp, rfl⟩ := List.mem_map.1 hx
            exact hall p hp hbad
        refine ⟨?_, h.noError⟩
        change m.w.length = dim
        rw [hlen, h.length_eq, min_eq_left hle]
    · rw [hnone]
      exact iff_of_true h (.inr (.inr ⟨p.2, (List.of_mem_zip hp).2, hbad⟩))

/-- The model has its dimension in every state of a run, and no step of it indexes out of range,
exactly when every message conforms. -/
theorem model_keeps_shape_iff {data : List (Sample F dim)} {lr lastLoss : F} {steps : ℕ}
    (h : Run step (GossipLearner.init data lr steps lastLoss) past l) :
    (∀ t, Visited past l t → t.Shaped) ↔ ∀ p ∈ past, p.1.Conforms p.2 := by
  apply h.visited_iff (J := fun _ => True)
  · exact ⟨List.length_replicate, rfl⟩
  · trivial
  · exact fun _ _ _ _ _ => trivial
  · intro l a l' _ hl hs
    cases a with
    | tick alive pick => exact iff_of_true (hl.tick hs) trivial
    | sync w b =>
      cases hs
      exact hl.onSync_iff w b

end GossipLearner

/-- Small numbers are computed without rounding. -/
instance : FloatArith ℚ ℚ := ⟨0, 2, Nat.cast, (· + ·), (· - ·), (· * ·), (· / ·), some⟩

namespace GossipLearner

def smallLearner : GossipLearner ℚ 2 := .init [⟨[1, 1], 1, rfl⟩] (1 / 4) 1 0

theorem model_keeps_shape_iff_of_sync : ∃ past l, Run step smallLearner past l ∧
    ((∀ t, Visited past l t → t.Shaped) ↔ ∀ p ∈ past, p.1.Conforms p.2) ∧
    l.model = ⟨[3 / 4, 1], 3 / 4⟩ := by
  obtain ⟨past, l, hr, hl⟩ := exists_run_of_exec step smallLearner
    [.tick ["b"] 0, .sync [1, 3 / 2, 5] 1] model ⟨[3 / 4, 1], 3 / 4⟩ (by decide +kernel)
  exact ⟨past, l, hr, model_keeps_shape_iff hr, hl⟩

/-- A message with one weight cuts a model of two dimensions, and the next tick indexes out of
range. -/
theorem short_message_deforms_model : ∃ past l, Run step smallLearner past l ∧
    l.model.w = [1 / 2] ∧ l.indexErrors = 1 ∧ ¬ ∀ t, Visited past l t → t.Shaped := by
  obtain ⟨past, l, hr, hl⟩ := exists_run_of_exec step smallLearner
    [.sync [1] 0, .tick ["b"] 0] (fun l => (l.model.w, l.indexErrors)) ([1 / 2], 1)
    (by decide +kernel)
  obtain ⟨hw, herrors⟩ := Prod.mk.inj hl
  refine ⟨past, l, hr, hw, herrors, fun hall => ?_⟩
  have hzero := (hall l (.inl rfl)).noError
  rw [herrors] at hzero
  cases hzero

end GossipLearner

end Suprime
