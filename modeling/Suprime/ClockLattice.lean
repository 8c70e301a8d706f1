import Mathlib.Order.Bounds.Basic
import Suprime.VectorClock

namespace Suprime
set_option autoImplicit true

namespace VectorClock

variable {ν : Type} [DecidableEq ν]

/-- The causal order: no count is larger, where an absent node counts as zero. -/
instance : Preorder (VectorClock ν) where
  le a b := ∀ k, a.count k ≤ b.count k
  le_refl _ _ := le_rfl
  le_trans _ _ _ hab hbc k := (hab k).trans (hbc k)

theorem le_iff {a b : VectorClock ν} : a ≤ b ↔ ∀ k, a.count k ≤ b.count k := Iff.rfl

/-- The counters of a clock are natural numbers. -/
def Natural (vc : VectorClock ν) : Prop := ∀ k v, vc.clock.get k = some v → 0 ≤ v

theorem Natural.count_nonneg {vc : VectorClock ν} (h : vc.Natural) (k : ν) : 0 ≤ vc.count k := by
  unfold count
  cases hk : vc.clock.get k with
  | none => exact le_rfl
  | some v => exact h k v hk

theorem Natural.init : (init : VectorClock ν).Natural := by
  intro k v hk
  cases hk

theorem Natural.increment {vc : VectorClock ν} (h : vc.Natural) (n : ν) :
    (vc.increment n).Natural := by
  intro k v hk
  have hk' : (vc.clock.set n (vc.count n + 1)).get k = some v := hk
  rw [Dict.get_set] at hk'
  split at hk'
  · have hn := h.count_nonneg n
    cases hk'
    omega
  · exact h k v hk'

theorem natural_ofList {l : List (ν × ℤ)} (h : ∀ p ∈ l, 0 ≤ p.2) :
    Natural ⟨.ofList l⟩ := by
  intro k v hk
  exact h _ (Dict.mem_of_get_ofList hk)

theorem count_of_some {vc : VectorClock ν} (h : vc.clock.get k = some v) : vc.count k = v := by
  rw [count, h, Option.getD_some]

theorem count_of_none {vc : VectorClock ν} (h : vc.clock.get k = none) : vc.count k = 0 := by
  rw [count, h, Option.getD_none]

theorem count_merge {a b : VectorClock ν} (ha : a.Natural) (k : ν) :
    (a.merge b).count k = max (a.count k) (b.count k) := by
  cases hk : b.clock.get k with
  | some v =>
    have hget : (a.merge b).clock.get k = some (max v (a.count k)) := by rw [get_merge, hk]
    rw [count_of_some hget, count_of_some hk, max_comm]
  | none =>
    have hget : (a.merge b).clock.get k = a.clock.get k := by rw [get_merge, hk]
    rw [count_of_none hk, max_eq_left (ha.count_nonneg k), count, hget]
    rfl

theorem Natural.merge {a b : VectorClock ν} (ha : a.Natural) (hb : b.Natural) :
    (a.merge b).Natural := by
  intro k v hk
  rw [get_merge] at hk
  cases hb' : b.clock.get k with
  | some w =>
    rw [hb'] at hk
    cases hk
    exact (hb k w hb').trans (le_max_left _ _)
  | none =>
    rw [hb'] at hk
    exact ha k v hk

theorem isLUB_merge {a b : VectorClock ν} (ha : a.Natural) : IsLUB {a, b} (a.merge b) := by
  constructor
  · rintro c (rfl | rfl) k
    · rw [count_merge ha]
      exact le_max_left _ _
    · rw [count_merge ha]
      exact le_max_right _ _
  · intro c hc k
    rw [count_merge ha]
    exact max_le (hc (.inl rfl) k) (hc (.inr rfl) k)

theorem same_counts_iff {a b : VectorClock ν} :
    (∀ k, a.count k = b.count k) ↔ a ≤ b ∧ b ≤ a := by
  constructor
  · intro h
    exact ⟨fun k => (h k).le, fun k => (h k).ge⟩
  · intro h k
    exact le_antisymm (h.1 k) (h.2 k)

theorem anyGreater_iff {a b : VectorClock ν} : anyGreater (pairs a b) = true ↔ ¬ a ≤ b := by
  rw [anyGreater_pairs, le_iff, not_forall]
  simp only [not_le]

theorem anyLess_iff {a b : VectorClock ν} : anyLess (pairs a b) = true ↔ ¬ b ≤ a := by
  rw [anyLess_pairs, le_iff, not_forall]
  simp only [not_le]

theorem compare_eq_of_le (a b : VectorClock ν) [Decidable (a ≤ b)] [Decidable (b ≤ a)] :
    a.compare b =
      if b ≤ a then if a ≤ b then .equal else .after
      else if a ≤ b then .before else .concurrent := by
  have hless : anyLess (pairs a b) = decide (¬ b ≤ a) := by
    rw [Bool.eq_iff_iff, anyLess_iff, decide_eq_true_iff]
  have hgreater : anyGreater (pairs a b) = decide (¬ a ≤ b) := by
    rw [Bool.eq_iff_iff, anyGreater_iff, decide_eq_true_iff]
  rw [compare_eq, hless, hgreater]
  by_cases hba : b ≤ a <;> by_cases hab : a ≤ b <;> simp [hba, hab]

/-- `compare` decides the pointwise order of the clocks, and `merge` is their least upper bound in
it. -/
theorem compare_decides_order {ν : Type} [DecidableEq ν] {a b : VectorClock ν} (ha : a.Natural)
    (hb : b.Natural) :
    (a.compare b = .equal ↔ ∀ k, a.count k = b.count k) ∧
      (a.compare b = .before ↔ a ≤ b ∧ ¬ ∀ k, a.count k = b.count k) ∧
      (a.compare b = .after ↔ b ≤ a ∧ ¬ ∀ k, a.count k = b.count k) ∧
      (a.compare b = .concurrent ↔ ¬ a ≤ b ∧ ¬ b ≤ a) ∧
      (a.merge b).Natural ∧ IsLUB {a, b} (a.merge b) := by
  classical
  rw [same_counts_iff, compare_eq_of_le]
  refine ⟨?_, ?_, ?_, ?_, ha.merge hb, isLUB_merge ha⟩ <;>
    by_cases hba : b ≤ a <;> by_cases hab : a ≤ b <;> simp [hba, hab]

/-- A clock with an explicit zero and a clock of another node. -/
theorem compare_decides_order_of_zero :
    ((⟨.ofList [("x", 0), ("y", 2)]⟩ : VectorClock String).compare ⟨.ofList [("z", 1)]⟩ =
      .concurrent) ∧
    IsLUB {(⟨.ofList [("x", 0), ("y", 2)]⟩ : VectorClock String), ⟨.ofList [("z", 1)]⟩}
      (VectorClock.merge ⟨.ofList [("x", 0), ("y", 2)]⟩ ⟨.ofList [("z", 1)]⟩) := by
  have hfirst : (⟨.ofList [("x", 0), ("y", 2)]⟩ : VectorClock String).Natural :=
    natural_ofList (by decide)
  have hsecond : (⟨.ofList [("z", 1)]⟩ : VectorClock String).Natural :=
    natural_ofList (by decide)
  exact ⟨by decide, (compare_decides_order hfirst hsecond).2.2.2.2.2⟩

end VectorClock

end Suprime
