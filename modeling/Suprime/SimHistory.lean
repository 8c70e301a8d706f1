import Suprime.SimLockstep

namespace Suprime
set_option autoImplicit true

namespace Simulation

variable {ρ α : Type}

/-- The `n`-th version after a reading of the clock. The first reading is the `0.0` of a new
store. -/
def Inputs.stamp (inputs : Inputs) (i n : ℕ) : ℚ :=
  Timestamp.nudge^[n] ((0 :: inputs.time).getD i 0)

/-- Inputs whose versions compare alike, with the same readings for claims, ids that repeat alike,
and the same enumerations. -/
structure Inputs.Alike (inputs inputs' : Inputs) : Prop where
  length : inputs.time.length = inputs'.time.length
  stamp : ∀ i ≤ inputs.time.length, ∀ m ≤ inputs.time.length, ∀ j ≤ inputs.time.length,
    ∀ n ≤ inputs.time.length,
      (inputs.stamp i m ≤ inputs.stamp j n ↔ inputs'.stamp i m ≤ inputs'.stamp j n)
  claimTime : ∀ k, inputs.claimTime k = inputs'.claimTime k
  messageId : ∀ j k,
    inputs.messageId j = inputs.messageId k ↔ inputs'.messageId j = inputs'.messageId k
  order : ∀ k l, inputs.order k l = inputs'.order k l

/-- Both runs raised, or they did the same and every node holds the same values. -/
def SameHistory (o o' : Option (Simulator ρ α)) : Prop :=
  Option.Rel (fun s s' => s.history = s'.history ∧ ∀ i key default,
    (s.nodes i).store.get key default = (s'.nodes i).store.get key default) o o'

/-- Versions at the same place of two runs, after at most `k` versions. -/
def Inputs.Stamps (inputs inputs' : Inputs) (k : ℕ) (x x' : ℚ) : Prop :=
  ∃ i ≤ inputs.time.length, ∃ n ≤ k, x = inputs.stamp i n ∧ x' = inputs'.stamp i n

namespace Inputs.Alike

variable {inputs inputs' : Inputs}

theorem readings (h : inputs.Alike inputs') : Readings (inputs.Stamps inputs') inputs inputs' where
  same := by
    rintro k hk a b c d ⟨i, hi, m, hm, rfl, rfl⟩ ⟨j, hj, n, hn, rfl, rfl⟩
    exact h.stamp i hi m (hm.trans hk) j hj n (hn.trans hk)
  nudged := by
    intro k
    refine ⟨?_, ?_⟩
    · rintro a b ⟨i, hi, n, hn, hab⟩
      exact ⟨i, hi, n, hn.trans (Nat.le_succ k), hab⟩
    · rintro a b ⟨i, hi, n, hn, rfl, rfl⟩
      refine ⟨i, hi, n + 1, Nat.succ_le_succ hn, ?_, ?_⟩
      · exact (Function.iterate_succ_apply' _ _ _).symm
      · exact (Function.iterate_succ_apply' _ _ _).symm
  zero := ⟨0, Nat.zero_le _, 0, le_rfl, rfl, rfl⟩
  time := by
    intro k
    by_cases hk : k < inputs.time.length
    · have hk' : k < inputs'.time.length := h.length ▸ hk
      rw [List.getElem?_eq_getElem hk, List.getElem?_eq_getElem hk']
      refine .some ⟨k + 1, hk, 0, Nat.zero_le k, ?_, ?_⟩
      · simp [Inputs.stamp, hk]
      · simp [Inputs.stamp, hk']
    · have hk' : ¬ k < inputs'.time.length := h.length ▸ hk
      rw [List.getElem?_eq_none (not_lt.1 hk), List.getElem?_eq_none (not_lt.1 hk')]
      exact .none

theorem rel (h : inputs.Alike inputs') :
    Inputs.Rel (fun x x' => ∃ k, x = inputs.messageId k ∧ x' = inputs'.messageId k) inputs
      inputs' where
  ids := by
    refine ⟨?_, ?_⟩
    · rintro x x' y ⟨j, rfl, rfl⟩ ⟨k, rfl, hk⟩
      exact (h.messageId j k).2 hk
    · rintro x x' y ⟨j, rfl, rfl⟩ ⟨k, hk, rfl⟩
      exact (h.messageId j k).1 hk
  claimTime := h.claimTime
  messageId := fun k => ⟨k, rfl, rfl⟩
  order := h.order

end Inputs.Alike

/-- Alike inputs give the same history, whatever an application calls. -/
theorem same_history_of_alike [PyNone α] (random : PyRandom ρ)
    (handler : String → Task α → HandlerOutcome α) {inputs inputs' : Inputs}
    (h : inputs.Alike inputs') (cfg : SimConfig) (calls : List (SimCall α)) :
    SameHistory (Simulator.driven random inputs handler cfg calls)
      (Simulator.driven random inputs' handler cfg calls) := by
  rcases rel_cases (Simulator.InStep.driven handler random h.readings h.rel cfg calls) with
    ⟨hs, hs'⟩ | ⟨s, s', hs, hs', k, hk, hrel⟩
  · rw [hs, hs']
    exact .none
  · rw [hs, hs']
    refine .some ⟨hrel.history.symm, ?_⟩
    intro i key default
    exact (hrel.node i).store.get key default

/-- What `random.Random(0)` draws in one step of two nodes: three numbers and an order of four
messages. -/
def firstDraws : PyRandom ℕ where
  seed _ := 0
  random n :=
    ([3802937935871711 / 4503599627370496, 3413523166645773 / 4503599627370496,
      947043007356207 / 2251799813685248].getD n 0, n + 1)
  choice _ n := (0, n)
  shuffle k n := (if k = 4 then [0, 1, 3, 2] else List.range k, n)
  sample k m n := ((List.range k).take m, n)

/-- Inputs that differ in the readings of the clock for versions and in the ids of messages. -/
def Inputs.timed (time : List ℚ) (c : Char) : Inputs where
  time := time
  claimTime _ := 0
  messageId k := String.ofList (List.replicate k c)
  order _ l := l
  order_perm _ l := .refl l

def calmPair : SimConfig where
  nNodes := 2
  dropRate := 0
  maxLatency := 0
  partitionProb := 0
  healProb := 0
  crashProb := 0
  restartProb := 0

/-- Both nodes write a key, before a step in which they gossip. -/
def twoWrites : List (SimCall (Option ℕ)) :=
  [.set 1 ['k'] (.plain (some 2)), .set 0 ['k'] (.plain (some 1)), .step]

def echo (_ : String) (t : Task (Option ℕ)) : HandlerOutcome (Option ℕ) := .returned t.args

def writesAt (time : List ℚ) (c : Char) : Option (Simulator ℕ (Option ℕ)) :=
  Simulator.driven firstDraws (.timed time c) echo calmPair twoWrites

def valueAtZero (o : Option (Simulator ℕ (Option ℕ))) : Option (Stored (Option ℕ)) :=
  o.map (fun s => (s.nodes 0).store.get ['k'] .none)

theorem valueAtZero_eq (h : SameHistory o o') : valueAtZero o = valueAtZero o' := by
  cases h with
  | none => rfl
  | some hs => exact congrArg some (hs.2 0 ['k'] .none)

/-- Later readings in the same order do not change the history. -/
theorem same_history_of_twoWrites :
    SameHistory (writesAt [1, 2] 'a') (writesAt [10, 25] 'b') ∧
      valueAtZero (writesAt [1, 2] 'a') = some (.plain (some 1)) := by
  refine ⟨same_history_of_alike firstDraws echo ?_ calmPair twoWrites, by decide +kernel⟩
  refine ⟨rfl, by decide +kernel, fun _ => rfl, ?_, fun _ _ => rfl⟩
  intro j k
  rw [Inputs.timed, Inputs.timed, String.ofList_inj, String.ofList_inj, List.replicate_left_inj,
    List.replicate_left_inj]

/-- The same seed and the same calls: where the second write reads the time of the first, the tie
goes to the other node. -/
theorem history_not_fixed_by_seed :
    ¬ SameHistory (writesAt [1, 1] 'a') (writesAt [1, 2] 'a') := by
  intro h
  have htie : valueAtZero (writesAt [1, 1] 'a') = some (.plain (some 2)) := by decide +kernel
  have hlast : valueAtZero (writesAt [1, 2] 'a') = some (.plain (some 1)) := by decide +kernel
  have heq := valueAtZero_eq h
  rw [htie, hlast] at heq
  simp at heq

end Simulation

end Suprime
