import Mathlib.Algebra.Order.BigOperators.Ring.Finset
import Mathlib.Algebra.Order.Field.Basic
import Mathlib.LinearAlgebra.Matrix.DotProduct
import Mathlib.Tactic.Linarith
import Mathlib.Tactic.Ring

namespace Suprime
set_option autoImplicit true

namespace LeastSquares

open Matrix

variable {K τ ι : Type} [Field K] [LinearOrder K] [IsStrictOrderedRing K] [Fintype τ] [Fintype ι]

/-- The sum of the squares of all features. -/
def size (A : Matrix τ ι K) : K := ∑ i, A i ⬝ᵥ A i

def residual (A : Matrix τ ι K) (y : τ → K) (θ : ι → K) : τ → K := A *ᵥ θ - y

def sse (A : Matrix τ ι K) (y : τ → K) (θ : ι → K) : K := residual A y θ ⬝ᵥ residual A y θ

/-- Half of the gradient of the sum of the squared errors. -/
def slope (A : Matrix τ ι K) (y : τ → K) (θ : ι → K) : ι → K := residual A y θ ᵥ* A

theorem dotProduct_self_nonneg (v : ι → K) : 0 ≤ v ⬝ᵥ v :=
  Finset.sum_nonneg (fun _ _ => mul_self_nonneg _)

theorem sq_dotProduct_le (v w : ι → K) : (v ⬝ᵥ w) ^ 2 ≤ (v ⬝ᵥ v) * (w ⬝ᵥ w) := by
  have h := Finset.sum_mul_sq_le_sq_mul_sq Finset.univ v w
  simpa only [dotProduct, ← pow_two] using h

section
omit [LinearOrder K] [IsStrictOrderedRing K]

theorem size_transpose (A : Matrix τ ι K) : size Aᵀ = size A := by
  unfold size dotProduct
  rw [Finset.sum_comm]
  rfl

end

theorem mulVec_sq_le (A : Matrix τ ι K) (v : ι → K) :
    (A *ᵥ v) ⬝ᵥ (A *ᵥ v) ≤ size A * (v ⬝ᵥ v) := by
  rw [size, Finset.sum_mul]
  apply Finset.sum_le_sum
  intro i _
  rw [← pow_two]
  exact sq_dotProduct_le (A i) v

theorem vecMul_sq_le (A : Matrix τ ι K) (r : τ → K) :
    (r ᵥ* A) ⬝ᵥ (r ᵥ* A) ≤ size A * (r ⬝ᵥ r) := by
  rw [← mulVec_transpose, ← size_transpose]
  exact mulVec_sq_le Aᵀ r

section
omit [LinearOrder K] [IsStrictOrderedRing K]

theorem sub_smul_sq (v w : ι → K) (t : K) :
    (v - t • w) ⬝ᵥ (v - t • w) = v ⬝ᵥ v - 2 * t * (v ⬝ᵥ w) + t ^ 2 * (w ⬝ᵥ w) := by
  simp only [sub_dotProduct, dotProduct_sub, smul_dotProduct, dotProduct_smul, smul_eq_mul,
    dotProduct_comm w v]
  ring

end

theorem middle_sq_le {v w : ι → K} {B : K} (h : v ⬝ᵥ v ≤ B) (h' : w ⬝ᵥ w ≤ B) :
    ((2 : K)⁻¹ • (v - (-1 : K) • w)) ⬝ᵥ ((2 : K)⁻¹ • (v - (-1 : K) • w)) ≤ B := by
  have hcross := dotProduct_self_nonneg (v - (1 : K) • w)
  rw [sub_smul_sq] at hcross
  rw [smul_dotProduct, dotProduct_smul, sub_smul_sq, smul_eq_mul, smul_eq_mul]
  linarith

section
omit [LinearOrder K] [IsStrictOrderedRing K]

theorem residual_sub_smul (A : Matrix τ ι K) (y : τ → K) (θ : ι → K) (t : K) :
    residual A y (θ - t • slope A y θ) = residual A y θ - t • (A *ᵥ slope A y θ) := by
  rw [residual, mulVec_sub, mulVec_smul, residual]
  exact sub_right_comm _ _ _

theorem residual_dotProduct_mulVec_slope (A : Matrix τ ι K) (y : τ → K) (θ : ι → K) :
    residual A y θ ⬝ᵥ (A *ᵥ slope A y θ) = slope A y θ ⬝ᵥ slope A y θ := by
  rw [dotProduct_mulVec]
  rfl

end

theorem sse_step_le (A : Matrix τ ι K) (y : τ → K) (θ : ι → K) (ht : 0 ≤ t)
    (hs : t * size A ≤ 2) : sse A y (θ - t • slope A y θ) ≤ sse A y θ := by
  have hnonneg := dotProduct_self_nonneg (slope A y θ)
  have himage := mulVec_sq_le A (slope A y θ)
  rw [sse, residual_sub_smul, sub_smul_sq, residual_dotProduct_mulVec_slope, ← sse]
  calc sse A y θ - 2 * t * (slope A y θ ⬝ᵥ slope A y θ) +
        t ^ 2 * ((A *ᵥ slope A y θ) ⬝ᵥ (A *ᵥ slope A y θ))
      ≤ sse A y θ - 2 * t * (slope A y θ ⬝ᵥ slope A y θ) +
          t ^ 2 * (size A * (slope A y θ ⬝ᵥ slope A y θ)) := by gcongr
    _ = sse A y θ - t * (slope A y θ ⬝ᵥ slope A y θ) * (2 - t * size A) := by ring
    _ ≤ sse A y θ := sub_le_self _ (mul_nonneg (mul_nonneg ht hnonneg) (sub_nonneg.2 hs))

theorem dist_step_le {A : Matrix τ ι K} {y : τ → K} {θ₀ : ι → K} (hfit : A *ᵥ θ₀ = y) (θ : ι → K)
    (ht : 0 ≤ t) (hs : t * size A ≤ 2) :
    (θ - t • slope A y θ - θ₀) ⬝ᵥ (θ - t • slope A y θ - θ₀) ≤ (θ - θ₀) ⬝ᵥ (θ - θ₀) := by
  have herror : residual A y θ = A *ᵥ (θ - θ₀) := by rw [residual, mulVec_sub, hfit]
  have hproduct : (θ - θ₀) ⬝ᵥ slope A y θ = sse A y θ := by
    rw [dotProduct_comm, slope, ← dotProduct_mulVec, ← herror]
    rfl
  have hnonneg : 0 ≤ sse A y θ := dotProduct_self_nonneg _
  have hslope : slope A y θ ⬝ᵥ slope A y θ ≤ size A * sse A y θ := vecMul_sq_le A _
  rw [sub_right_comm, sub_smul_sq, hproduct]
  calc (θ - θ₀) ⬝ᵥ (θ - θ₀) - 2 * t * sse A y θ + t ^ 2 * (slope A y θ ⬝ᵥ slope A y θ)
      ≤ (θ - θ₀) ⬝ᵥ (θ - θ₀) - 2 * t * sse A y θ + t ^ 2 * (size A * sse A y θ) := by gcongr
    _ = (θ - θ₀) ⬝ᵥ (θ - θ₀) - t * sse A y θ * (2 - t * size A) := by ring
    _ ≤ (θ - θ₀) ⬝ᵥ (θ - θ₀) :=
      sub_le_self _ (mul_nonneg (mul_nonneg ht hnonneg) (sub_nonneg.2 hs))

theorem sse_middle_le (A : Matrix τ ι K) (y : τ → K) {θ θ' : ι → K} {B : K}
    (h : sse A y θ ≤ B) (h' : sse A y θ' ≤ B) : sse A y ((2 : K)⁻¹ • (θ + θ')) ≤ B := by
  have hmiddle : residual A y ((2 : K)⁻¹ • (θ + θ')) =
      (2 : K)⁻¹ • (residual A y θ - (-1 : K) • residual A y θ') := by
    rw [residual, mulVec_smul, mulVec_add, residual, residual]
    ext i
    simp only [Pi.sub_apply, Pi.smul_apply, Pi.add_apply, smul_eq_mul]
    ring
  rw [sse, hmiddle]
  exact middle_sq_le h h'

theorem dist_middle_le {θ θ' θ₀ : ι → K} {B : K} (h : (θ - θ₀) ⬝ᵥ (θ - θ₀) ≤ B)
    (h' : (θ' - θ₀) ⬝ᵥ (θ' - θ₀) ≤ B) :
    ((2 : K)⁻¹ • (θ + θ') - θ₀) ⬝ᵥ ((2 : K)⁻¹ • (θ + θ') - θ₀) ≤ B := by
  have hmiddle : (2 : K)⁻¹ • (θ + θ') - θ₀ = (2 : K)⁻¹ • ((θ - θ₀) - (-1 : K) • (θ' - θ₀)) := by
    ext i
    simp only [Pi.sub_apply, Pi.smul_apply, Pi.add_apply, smul_eq_mul]
    ring
  rw [hmiddle]
  exact middle_sq_le h h'

end LeastSquares

end Suprime
