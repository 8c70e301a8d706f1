import Mathlib.Algebra.Order.Ring.Rat
import Mathlib.Data.Finset.Basic
import Mathlib.Tactic.NormNum
import Suprime.Run

namespace Suprime
set_option autoImplicit true

/-- The health of the network that all transports share. -/
structure ChaosController where
  dropRate : ℚ
  duplicateRate : ℚ
  latency : ℚ
  jitter : ℚ
  partitions : List (Finset String)
  delivered : ℕ
  dropped : ℕ
  duplicated : ℕ

namespace ChaosController

def partition (c : ChaosController) (groups : List (List String)) : ChaosController :=
  { c with partitions := groups.map List.toFinset }

def heal (c : ChaosController) : ChaosController := { c with partitions := [] }

def canReach (c : ChaosController) (src dst : String) : Bool :=
  if c.partitions = [] then true
  else if c.partitions.any (fun group => src ∈ group ∧ dst ∈ group) then true
  else !c.partitions.any (fun g => src ∈ g ∨ dst ∈ g)

/-- The decisions about one message, each with what the random generator yields for it. -/
def shouldDrop (c : ChaosController) (draw : ℚ) : Bool := 0 < c.dropRate ∧ draw < c.dropRate

def shouldDuplicate (c : ChaosController) (draw : ℚ) : Bool :=
  0 < c.duplicateRate ∧ draw < c.duplicateRate

def delay (c : ChaosController) (draw : ℚ) : ℚ :=
  c.latency + if c.jitter ≠ 0 then draw * c.jitter else 0

end ChaosController

/-- A message with the addresses of its sender and of its receiver. -/
structure ChaosPacket (M : Type) where
  src : String
  dst : String
  message : M
  deriving DecidableEq

/-- Where a call of `send` is suspended: in its delay, or in the first or the second call of the
inner `send`. -/
inductive ChaosPhase
  | sleeping
  | first
  | second
  deriving DecidableEq

/-- The transports of a network around one controller: the addresses that have been started, the
calls of `send` that are suspended, and what the inner transports are to deliver. The last field is
history: what was handed to `on_message`, each with the partitions that were in force. -/
structure ChaosNet (M : Type) where
  chaos : ChaosController
  started : Finset String
  sends : List (ChaosPacket M × ChaosPhase)
  inFlight : List (ChaosPacket M)
  handed : List (ChaosPacket M × List (Finset String))

/-- What may happen. An inner transport may lose a message or deliver it more than once, and its
`send` may raise. -/
inductive ChaosAction (M : Type)
  | tune (dropRate duplicateRate latency jitter : ℚ)
  | partition (groups : List (List String))
  | heal
  | start (address : String)
  | send (p : ChaosPacket M) (dropDraw delayDraw : ℚ)
  | wake (k : ℕ)
  | sent (k : ℕ) (ok : Bool) (draw : ℚ)
  | lose (i : ℕ)
  | deliver (i : ℕ) (again : Bool)

def ChaosAction.Reshapes : ChaosAction M → Prop
  | .partition _ => True
  | .heal => True
  | _ => False

/-- The sender is in one of the groups, and the receiver shares none with it. -/
def Separated (groups : List (Finset String)) (src dst : String) : Prop :=
  (∃ g ∈ groups, src ∈ g) ∧ ∀ g ∈ groups, src ∈ g → dst ∉ g

instance (groups : List (Finset String)) (src dst : String) :
    Decidable (Separated groups src dst) :=
  inferInstanceAs (Decidable ((∃ g ∈ groups, src ∈ g) ∧ ∀ g ∈ groups, src ∈ g → dst ∉ g))

namespace ChaosNet

variable {M : Type}

def init (chaos : ChaosController) : ChaosNet M := ⟨chaos, ∅, [], [], []⟩

def reshape (s : ChaosNet M) (chaos : ChaosController) : ChaosNet M := { s with chaos := chaos }

/-- The inner `send` is called with a message. -/
def innerSend (s : ChaosNet M) (p : ChaosPacket M) (phase : ChaosPhase) : ChaosNet M :=
  { s with sends := s.sends ++ [(p, phase)], inFlight := s.inFlight ++ [p] }

def send (s : ChaosNet M) (p : ChaosPacket M) (dropDraw delayDraw : ℚ) : ChaosNet M :=
  if s.chaos.canReach p.src p.dst = false then s
  else if s.chaos.shouldDrop dropDraw then
    s.reshape { s.chaos with dropped := s.chaos.dropped + 1 }
  else if s.chaos.delay delayDraw ≠ 0 then { s with sends := s.sends ++ [(p, .sleeping)] }
  else s.innerSend p .first

/-- The first call of the inner `send` has returned. -/
def counted (s : ChaosNet M) (p : ChaosPacket M) (draw : ℚ) : ChaosNet M :=
  if s.chaos.shouldDuplicate draw then
    (s.reshape { s.chaos with
      delivered := s.chaos.delivered + 1
      duplicated := s.chaos.duplicated + 1 }).innerSend p .second
  else s.reshape { s.chaos with delivered := s.chaos.delivered + 1 }

/-- `_recv`, which hands every message on. -/
def recv (s : ChaosNet M) (p : ChaosPacket M) : ChaosNet M :=
  if p.dst ∈ s.started then { s with handed := s.handed ++ [(p, s.chaos.partitions)] } else s

def step (s : ChaosNet M) : ChaosAction M → Option (ChaosNet M)
  | .tune dropRate duplicateRate latency jitter =>
    some (s.reshape { s.chaos with dropRate, duplicateRate, latency, jitter })
  | .partition groups => some (s.reshape (s.chaos.partition groups))
  | .heal => some (s.reshape s.chaos.heal)
  | .start address => some { s with started := insert address s.started }
  | .send p dropDraw delayDraw => some (s.send p dropDraw delayDraw)
  | .wake k =>
    match s.sends[k]? with
    | some (p, .sleeping) => some ({ s with sends := s.sends.eraseIdx k }.innerSend p .first)
    | _ => none
  | .sent k ok draw =>
    match s.sends[k]? with
    | some (p, .first) =>
      if ok then some ({ s with sends := s.sends.eraseIdx k }.counted p draw)
      else some { s with sends := s.sends.eraseIdx k }
    | some (_, .second) => some { s with sends := s.sends.eraseIdx k }
    | _ => none
  | .lose i =>
    if i < s.inFlight.length then some { s with inFlight := s.inFlight.eraseIdx i } else none
  | .deliver i again =>
    match s.inFlight[i]? with
    | some p =>
      some ((if again then s else { s with inFlight := s.inFlight.eraseIdx i }).recv p)
    | none => none

/-- The messages that may still be handed over: those of the inner transports, and those of calls
of `send` that may call the inner `send` again. -/
def flying (s : ChaosNet M) : List (ChaosPacket M) :=
  (s.sends.filter (fun x => x.2 ≠ .second)).map Prod.fst ++ s.inFlight

/-- No partition separates the ends of a message on its way. -/
def Meets (s : ChaosNet M) : ChaosAction M → Prop
  | .partition groups =>
    ∀ p ∈ s.flying, ¬ Separated (s.chaos.partition groups).partitions p.src p.dst
  | _ => True

instance (s : ChaosNet M) : (a : ChaosAction M) → Decidable (s.Meets a)
  | .partition _ => inferInstanceAs (Decidable (∀ p ∈ _, _))
  | .tune _ _ _ _ => isTrue trivial
  | .heal => isTrue trivial
  | .start _ => isTrue trivial
  | .send _ _ _ => isTrue trivial
  | .wake _ => isTrue trivial
  | .sent _ _ _ => isTrue trivial
  | .lose _ => isTrue trivial
  | .deliver _ _ => isTrue trivial

/-- No message was handed across the groups that were in force. -/
def Isolates (s : ChaosNet M) : Prop := ∀ x ∈ s.handed, ¬ Separated x.2 x.1.src x.1.dst

/-- No message on its way has its ends separated. -/
structure Ok (s : ChaosNet M) : Prop where
  flying : ∀ p ∈ s.flying, ¬ Separated s.chaos.partitions p.src p.dst
  isolates : s.Isolates

theorem mem_flying {s : ChaosNet M} :
    p ∈ s.flying ↔ (∃ phase, phase ≠ .second ∧ (p, phase) ∈ s.sends) ∨ p ∈ s.inFlight := by
  simp only [ChaosNet.flying, List.mem_append, List.mem_map, List.mem_filter, decide_eq_true_eq]
  constructor
  · rintro (⟨⟨q, phase⟩, ⟨hmem, hphase⟩, rfl⟩ | hmem)
    · exact .inl ⟨phase, hphase, hmem⟩
    · exact .inr hmem
  · rintro (⟨phase, hphase, hmem⟩ | hmem)
    · exact .inl ⟨(p, phase), ⟨hmem, hphase⟩, rfl⟩
    · exact .inr hmem

theorem not_separated_of_canReach {c : ChaosController} (h : c.canReach src dst = true) :
    ¬ Separated c.partitions src dst := by
  rintro ⟨⟨g, hg, hsrc⟩, hnone⟩
  unfold ChaosController.canReach at h
  split at h
  · rename_i hempty
    rw [hempty] at hg
    cases hg
  · split at h
    · rename_i hshared
      obtain ⟨g', hg', hboth⟩ := List.any_eq_true.1 hshared
      rw [decide_eq_true_eq] at hboth
      exact hnone g' hg' hboth.1 hboth.2
    · rw [Bool.not_eq_true', List.any_eq_false] at h
      exact h g hg (decide_eq_true (.inl hsrc))

theorem flying_mono {s s' : ChaosNet M} (hsends : s'.sends ⊆ s.sends)
    (hflight : s'.inFlight ⊆ s.inFlight) : s'.flying ⊆ s.flying := by
  intro p hp
  rw [mem_flying] at hp ⊢
  rcases hp with ⟨phase, hphase, hmem⟩ | hmem
  · exact .inl ⟨phase, hphase, hsends hmem⟩
  · exact .inr (hflight hmem)

theorem flying_innerSend {s : ChaosNet M} {phase : ChaosPhase}
    (h : q ∈ (s.innerSend p phase).flying) : q ∈ s.flying ∨ q = p := by
  rw [mem_flying] at h
  rcases h with ⟨phase', hphase, hmem⟩ | hmem
  · rcases List.mem_append.1 hmem with hmem | hmem
    · exact .inl (mem_flying.2 (.inl ⟨phase', hphase, hmem⟩))
    · cases List.mem_singleton.1 hmem
      exact .inr rfl
  · rcases List.mem_append.1 hmem with hmem | hmem
    · exact .inl (mem_flying.2 (.inr hmem))
    · exact .inr (List.mem_singleton.1 hmem)

theorem send_spec (s : ChaosNet M) (p : ChaosPacket M) (dropDraw delayDraw : ℚ) :
    (∀ q ∈ (s.send p dropDraw delayDraw).flying,
      q ∈ s.flying ∨ s.chaos.canReach q.src q.dst = true) ∧
      (s.send p dropDraw delayDraw).handed = s.handed ∧
      (s.send p dropDraw delayDraw).chaos.partitions = s.chaos.partitions := by
  unfold ChaosNet.send
  split
  · exact ⟨fun q hq => .inl hq, rfl, rfl⟩
  · rename_i hreach
    rw [Bool.not_eq_false] at hreach
    split
    · exact ⟨fun q hq => .inl hq, rfl, rfl⟩
    · split
      · refine ⟨fun q hq => ?_, rfl, rfl⟩
        rcases mem_flying.1 hq with ⟨phase, hphase, hmem⟩ | hmem
        · rcases List.mem_append.1 hmem with hmem | hmem
          · exact .inl (mem_flying.2 (.inl ⟨phase, hphase, hmem⟩))
          · cases List.mem_singleton.1 hmem
            exact .inr hreach
        · exact .inl (mem_flying.2 (.inr hmem))
      · refine ⟨fun q hq => ?_, rfl, rfl⟩
        cases flying_innerSend hq with
        | inl hq => exact .inl hq
        | inr heq => exact .inr (heq ▸ hreach)

theorem counted_spec (s : ChaosNet M) (p : ChaosPacket M) (draw : ℚ) :
    (∀ q ∈ (s.counted p draw).flying, q ∈ s.flying ∨ q = p) ∧
      (s.counted p draw).handed = s.handed ∧
      (s.counted p draw).chaos.partitions = s.chaos.partitions := by
  unfold ChaosNet.counted
  split
  · exact ⟨fun q hq => flying_innerSend hq, rfl, rfl⟩
  · exact ⟨fun q hq => .inl hq, rfl, rfl⟩

theorem recv_spec (s : ChaosNet M) (p : ChaosPacket M) :
    (s.recv p).flying = s.flying ∧ (s.recv p).chaos = s.chaos ∧
      ∀ x ∈ (s.recv p).handed, x ∈ s.handed ∨ x = (p, s.chaos.partitions) := by
  unfold ChaosNet.recv
  split
  · refine ⟨rfl, rfl, fun x hx => ?_⟩
    rcases List.mem_append.1 hx with hx | hx
    · exact .inl hx
    · exact .inr (List.mem_singleton.1 hx)
  · exact ⟨rfl, rfl, fun x hx => .inl hx⟩

/-- What a step does: the messages on their way afterwards were so before or may pass, and what is
handed over was on its way. -/
theorem step_spec {s s' : ChaosNet M} (hs : s.step a = some s') :
    (∀ p ∈ s'.flying, p ∈ s.flying ∨ s.chaos.canReach p.src p.dst = true) ∧
      (∀ x ∈ s'.handed, x ∈ s.handed ∨ x.1 ∈ s.flying ∧ x.2 = s.chaos.partitions) ∧
      (s'.chaos.partitions = s.chaos.partitions ∨
        (∃ groups, a = .partition groups ∧ s'.chaos = s.chaos.partition groups) ∨
        s'.chaos.partitions = []) := by
  have herase : ∀ k, ({ s with sends := s.sends.eraseIdx k } : ChaosNet M).flying ⊆ s.flying :=
    fun k => flying_mono List.eraseIdx_subset (fun _ h => h)
  have hdrop : ∀ i, ({ s with inFlight := s.inFlight.eraseIdx i } : ChaosNet M).flying ⊆ s.flying :=
    fun i => flying_mono (fun _ h => h) List.eraseIdx_subset
  cases a with
  | tune dropRate duplicateRate latency jitter =>
    cases hs
    exact ⟨fun p hp => .inl hp, fun x hx => .inl hx, .inl rfl⟩
  | partition groups =>
    cases hs
    exact ⟨fun p hp => .inl hp, fun x hx => .inl hx, .inr (.inl ⟨groups, rfl, rfl⟩)⟩
  | heal =>
    cases hs
    exact ⟨fun p hp => .inl hp, fun x hx => .inl hx, .inr (.inr rfl)⟩
  | start address =>
    cases hs
    exact ⟨fun p hp => .inl hp, fun x hx => .inl hx, .inl rfl⟩
  | send p dropDraw delayDraw =>
    cases hs
    obtain ⟨hflying, hhanded, hpart⟩ := s.send_spec p dropDraw delayDraw
    refine ⟨hflying, fun x hx => .inl ?_, .inl hpart⟩
    rw [hhanded] at hx
    exact hx
  | wake k =>
    simp only [ChaosNet.step] at hs
    split at hs
    · rename_i p hk
      cases hs
      have hp : p ∈ s.flying :=
        mem_flying.2 (.inl ⟨.sleeping, by decide, List.mem_of_getElem? hk⟩)
      refine ⟨fun q hq => .inl ?_, fun x hx => .inl hx, .inl rfl⟩
      cases flying_innerSend hq with
      | inl hq => exact herase k hq
      | inr heq => exact heq ▸ hp
    · cases hs
  | sent k ok draw =>
    simp only [ChaosNet.step] at hs
    split at hs
    · rename_i p hk
      have hp : p ∈ s.flying :=
        mem_flying.2 (.inl ⟨.first, by decide, List.mem_of_getElem? hk⟩)
      split at hs
      · cases hs
        obtain ⟨hflying, hhanded, hpart⟩ :=
          ({ s with sends := s.sends.eraseIdx k } : ChaosNet M).counted_spec p draw
        refine ⟨fun q hq => .inl ?_, fun x hx => .inl ?_, .inl hpart⟩
        · cases hflying q hq with
          | inl hq => exact herase k hq
          | inr heq => exact heq ▸ hp
        · rw [hhanded] at hx
          exact hx
      · cases hs
        exact ⟨fun q hq => .inl (herase k hq), fun x hx => .inl hx, .inl rfl⟩
    · cases hs
      exact ⟨fun q hq => .inl (herase k hq), fun x hx => .inl hx, .inl rfl⟩
    · cases hs
  | lose i =>
    simp only [ChaosNet.step] at hs
    split at hs
    · cases hs
      exact ⟨fun q hq => .inl (hdrop i hq), fun x hx => .inl hx, .inl rfl⟩
    · cases hs
  | deliver i again =>
    simp only [ChaosNet.step] at hs
    split at hs
    · rename_i p hi
      have hp : p ∈ s.flying := mem_flying.2 (.inr (List.mem_of_getElem? hi))
      cases hs
      generalize hs₁ : (if again = true then s else
        { s with inFlight := s.inFlight.eraseIdx i }) = s₁
      have hsub : s₁.flying ⊆ s.flying ∧ s₁.handed = s.handed ∧ s₁.chaos = s.chaos := by
        cases again with
        | true =>
          rw [← hs₁, if_pos rfl]
          exact ⟨fun _ h => h, rfl, rfl⟩
        | false =>
          rw [← hs₁, if_neg Bool.false_ne_true]
          exact ⟨hdrop i, rfl, rfl⟩
      obtain ⟨hflying, hhanded, hchaos⟩ := hsub
      obtain ⟨hflying', hchaos', hhanded'⟩ := s₁.recv_spec p
      refine ⟨fun q hq => .inl ?_, fun x hx => ?_, .inl ?_⟩
      · rw [hflying'] at hq
        exact hflying hq
      · cases hhanded' x hx with
        | inl hx =>
          rw [hhanded] at hx
          exact .inl hx
        | inr heq =>
          rw [heq, hchaos]
          exact .inr ⟨hp, rfl⟩
      · rw [hchaos', hchaos]
    · cases hs

theorem Ok.init (chaos : ChaosController) : (ChaosNet.init chaos : ChaosNet M).Ok where
  flying p hp := by cases hp
  isolates x hx := by cases hx

theorem Ok.step {s s' : ChaosNet M} (h : s.Ok) (hm : s.Meets a) (hs : s.step a = some s') :
    s'.Ok := by
  obtain ⟨hflying, hhanded, hgroups⟩ := step_spec hs
  have hkeep : ∀ p ∈ s'.flying, ¬ Separated s.chaos.partitions p.src p.dst := by
    intro p hp
    cases hflying p hp with
    | inl hp => exact h.flying p hp
    | inr hreach => exact not_separated_of_canReach hreach
  constructor
  · intro p hp
    rcases hgroups with hsame | ⟨groups, rfl, hchaos⟩ | hnone
    · rw [hsame]
      exact hkeep p hp
    · -- the partition is imposed on what is on its way
      cases hs
      exact hm p hp
    · rw [hnone]
      rintro ⟨⟨g, hg, _⟩, _⟩
      cases hg
  · intro x hx
    cases hhanded x hx with
    | inl hx => exact h.isolates x hx
    | inr hnew =>
      rw [hnew.2]
      exact h.flying x.1 hnew.1

theorem Ok.run {s s' : ChaosNet M} (h : s.Ok) (hr : Run ChaosNet.step s past s')
    (hm : ∀ p ∈ past, p.1.Meets p.2) : s'.Ok :=
  hr.invariant hm h (fun _ _ _ hs hc hstep => hs.step hc hstep)

theorem exists_handed_of_inFlight {s : ChaosNet M} (hp : p ∈ s.inFlight) :
    ∃ past u, Run ChaosNet.step s past u ∧ (∀ x ∈ past, ¬ x.2.Reshapes) ∧
      (p, s.chaos.partitions) ∈ u.handed := by
  obtain ⟨i, hi⟩ := List.mem_iff_getElem?.1 hp
  have hstart : s.step (.start p.dst) = some { s with started := insert p.dst s.started } := rfl
  generalize hs₁ : ({ s with started := insert p.dst s.started } : ChaosNet M) = s₁ at hstart
  have hi₁ : s₁.inFlight[i]? = some p := by
    rw [← hs₁]
    exact hi
  have hdeliver : s₁.step (.deliver i true) = some (s₁.recv p) := by
    simp [ChaosNet.step, hi₁]
  refine ⟨_, _, (Run.start.next hstart).next hdeliver, ?_, ?_⟩
  · intro x hx
    simp only [List.mem_cons, List.not_mem_nil, or_false] at hx
    rcases hx with rfl | rfl <;> exact id
  · have hmem : p.dst ∈ s₁.started := by
      rw [← hs₁]
      exact Finset.mem_insert_self _ _
    have hgroups : s₁.chaos.partitions = s.chaos.partitions := by rw [← hs₁]
    rw [ChaosNet.recv, if_pos hmem, hgroups]
    exact List.mem_append_right _ List.mem_cons_self

theorem exists_handed {s : ChaosNet M} (hp : p ∈ s.flying) :
    ∃ past u, Run ChaosNet.step s past u ∧ (∀ x ∈ past, ¬ x.2.Reshapes) ∧
      (p, s.chaos.partitions) ∈ u.handed := by
  -- one call of the inner `send` after some steps that leave the groups alone is enough
  have hlater : ∀ past s₁, Run ChaosNet.step s past s₁ → (∀ x ∈ past, ¬ x.2.Reshapes) →
      s₁.chaos.partitions = s.chaos.partitions → p ∈ s₁.inFlight →
      ∃ past u, Run ChaosNet.step s past u ∧ (∀ x ∈ past, ¬ x.2.Reshapes) ∧
        (p, s.chaos.partitions) ∈ u.handed := by
    intro past s₁ hr hpast hgroups hmem
    obtain ⟨past', u, hr', hpast', hu⟩ := exists_handed_of_inFlight hmem
    rw [hgroups] at hu
    refine ⟨past' ++ past, u, hr.append hr', ?_, hu⟩
    intro x hx
    rcases List.mem_append.1 hx with hx | hx
    · exact hpast' x hx
    · exact hpast x hx
  rcases mem_flying.1 hp with ⟨phase, hphase, hmem⟩ | hmem
  · obtain ⟨k, hk⟩ := List.mem_iff_getElem?.1 hmem
    cases phase with
    | sleeping =>
      have hwake : s.step (.wake k) =
          some ({ s with sends := s.sends.eraseIdx k }.innerSend p .first) := by
        simp only [ChaosNet.step, hk]
      refine hlater _ _ (Run.start.next hwake) ?_ rfl
        (List.mem_append_right _ List.mem_cons_self)
      intro x hx
      rw [List.mem_singleton.1 hx]
      exact id
    | first =>
      -- the duplicate that a rate of 1 makes
      have htune : s.step (.tune 0 1 0 0) = some (s.reshape { s.chaos with
          dropRate := 0, duplicateRate := 1, latency := 0, jitter := 0 }) := rfl
      generalize hs₁ : s.reshape { s.chaos with
        dropRate := 0, duplicateRate := 1, latency := 0, jitter := 0 } = s₁ at htune
      have hk₁ : s₁.sends[k]? = some (p, .first) := by
        rw [← hs₁]
        exact hk
      have hsent : s₁.step (.sent k true 0) =
          some ({ s₁ with sends := s₁.sends.eraseIdx k }.counted p 0) := by
        simp only [ChaosNet.step, hk₁, if_true]
      have hdup : s₁.chaos.shouldDuplicate 0 = true := by
        rw [← hs₁]
        exact decide_eq_true ⟨zero_lt_one, zero_lt_one⟩
      have hgroups : s₁.chaos.partitions = s.chaos.partitions := by
        rw [← hs₁]
        rfl
      refine hlater _ _ ((Run.start.next htune).next hsent) ?_ ?_ ?_
      · intro x hx
        simp only [List.mem_cons, List.not_mem_nil, or_false] at hx
        rcases hx with rfl | rfl <;> exact id
      · rw [(counted_spec _ p 0).2.2]
        exact hgroups
      · rw [counted, if_pos hdup]
        exact List.mem_append_right _ List.mem_cons_self
    | second => exact absurd rfl hphase
  · exact exists_handed_of_inFlight hmem

/-- In a run in which no partition separates the ends of a message on its way, nothing is handed
across the groups in force. A partition can be relied on to isolate, whatever comes before the next
change of the groups, exactly when it separates no message on its way. -/
theorem partition_isolates {chaos : ChaosController}
    (h : Run ChaosNet.step (ChaosNet.init chaos : ChaosNet M) past s)
    (hm : ∀ p ∈ past, p.1.Meets p.2) :
    s.Isolates ∧ ∀ groups s', s.step (.partition groups) = some s' →
      (s.Meets (.partition groups) ↔ ∀ past' u, Run ChaosNet.step s' past' u →
        (∀ x ∈ past', ¬ x.2.Reshapes) → u.Isolates) := by
  have hok := (Ok.init chaos).run h hm
  refine ⟨hok.isolates, ?_⟩
  intro groups s' hs
  constructor
  · intro hmeets past' u hr hpast
    apply ((hok.step hmeets hs).run hr ?_).isolates
    rintro ⟨t, a⟩ hx
    cases a with
    | partition groups => exact absurd trivial (hpast _ hx)
    | _ => trivial
  · intro hall p hp hsep
    cases hs
    have hp' : p ∈ (s.reshape (s.chaos.partition groups)).flying := hp
    obtain ⟨past', u, hr, hpast, hu⟩ := exists_handed hp'
    exact hall past' u hr hpast _ hu hsep

def slowChaos : ChaosController := ⟨0, 0, 1, 0, [], 0, 0, 0⟩

def helloPacket : ChaosPacket String := ⟨"a", "b", "hello"⟩

theorem partition_isolates_of_quiet : ∃ past s,
    Run ChaosNet.step (ChaosNet.init slowChaos : ChaosNet String) past s ∧
    s.handed = [(helloPacket, [])] ∧ s.sends = [] ∧
    (s.Isolates ∧ ∀ groups s', s.step (.partition groups) = some s' →
      (s.Meets (.partition groups) ↔ ∀ past' u, Run ChaosNet.step s' past' u →
        (∀ x ∈ past', ¬ x.2.Reshapes) → u.Isolates)) := by
  obtain ⟨past, s, hr, hm, hs⟩ := exists_run_of_execWhere ChaosNet.step ChaosNet.Meets
    (ChaosNet.init slowChaos) [.start "b", .send helloPacket 0 0, .wake 0, .deliver 0 false,
      .sent 0 true 0, .partition [["a"], ["b"]], .send helloPacket 0 0]
    (fun s => (s.handed, s.sends)) ([(helloPacket, [])], []) (by decide +kernel)
  obtain ⟨hhanded, hsends⟩ := Prod.mk.inj hs
  exact ⟨past, s, hr, hhanded, hsends, partition_isolates hr hm⟩

/-- A message that is in its delay when a partition comes is handed across it. -/
theorem delayed_message_crosses_partition : ∃ past s,
    Run ChaosNet.step (ChaosNet.init slowChaos : ChaosNet String) past s ∧
    s.handed = [(helloPacket, [{"a"}, {"b"}])] ∧ ¬ s.Isolates := by
  obtain ⟨past, s, hr, hs⟩ := exists_run_of_exec ChaosNet.step
    (ChaosNet.init slowChaos : ChaosNet String) [.start "b", .send helloPacket 0 0,
      .partition [["a"], ["b"]], .wake 0, .deliver 0 false]
    ChaosNet.handed [(helloPacket, [{"a"}, {"b"}])] (by decide +kernel)
  refine ⟨past, s, hr, hs, fun hall => ?_⟩
  apply hall (helloPacket, [{"a"}, {"b"}])
  · rw [hs]
    exact List.mem_cons_self
  · decide

end ChaosNet

end Suprime
