import Suprime.PowMod
import Mathlib.Algebra.Field.Basic
import Mathlib.Algebra.Group.Even
import Mathlib.Tactic.FieldSimp
import Mathlib.Tactic.LinearCombination
import Mathlib.Tactic.Ring
import Mathlib.Algebra.Group.Nat.Even
import Mathlib.Data.Int.Cast.Lemmas

namespace Suprime
set_option autoImplicit true

/-- A twisted Edwards curve `a x² + y² = 1 + d x² y²` whose addition law has no exceptions:
`a` is a square and `d` is not. -/
structure EdwardsCurve (K : Type*) [Field K] where
  a : K
  d : K
  root : K
  root_sq : root ^ 2 = a
  d_nonsquare : ¬ IsSquare d
  two_ne_zero : (2 : K) ≠ 0

namespace EdwardsCurve
variable [Field K] (E : EdwardsCurve K)

def OnCurve (x y : K) : Prop := E.a * x ^ 2 + y ^ 2 = 1 + E.d * x ^ 2 * y ^ 2

/-- A point of the curve. -/
@[ext] structure Point where
  x : K
  y : K
  on : E.OnCurve x y

variable {E}

theorem eq_zero_of_sq_eq {u v : K} (h : u ^ 2 = E.d * v ^ 2) : v = 0 := by
  by_contra hv
  apply E.d_nonsquare
  refine ⟨u / v, ?_⟩
  rw [div_mul_div_comm, ← sq, ← sq, h, mul_div_cancel_right₀ _ (pow_ne_zero 2 hv)]

theorem sq_eq_of_cross {r e x₁ y₁ x₂ y₂ : K} (hr : r ^ 2 = E.a) (h₁ : E.OnCurve x₁ y₁)
    (h₂ : E.OnCurve x₂ y₂) (he : e = E.d * x₁ * x₂ * y₁ * y₂) (hsq : e ^ 2 = 1) :
    (y₁ + r * e * x₁) ^ 2 = E.d * (x₁ * y₁ * (y₂ + r * x₂)) ^ 2 := by
  rw [OnCurve] at h₁ h₂
  grind

theorem cross_sq_ne_one {x₁ y₁ x₂ y₂ : K} (h₁ : E.OnCurve x₁ y₁) (h₂ : E.OnCurve x₂ y₂) :
    (E.d * x₁ * x₂ * y₁ * y₂) ^ 2 ≠ 1 := by
  intro hsq
  have hne : E.d * x₁ * x₂ * y₁ * y₂ ≠ 0 := by
    intro h0
    rw [h0, zero_pow (Nat.succ_ne_zero 1)] at hsq
    exact zero_ne_one hsq
  have hroot : (-E.root) ^ 2 = E.a := by rw [neg_sq, E.root_sq]
  have hplus := eq_zero_of_sq_eq (sq_eq_of_cross E.root_sq h₁ h₂ rfl hsq)
  have hminus := eq_zero_of_sq_eq (sq_eq_of_cross hroot h₁ h₂ rfl hsq)
  have hxy : x₁ * y₁ ≠ 0 := by
    intro h0
    apply hne
    linear_combination E.d * x₂ * y₂ * h0
  have hp := (mul_eq_zero.1 hplus).resolve_left hxy
  have hm := (mul_eq_zero.1 hminus).resolve_left hxy
  have hy : 2 * y₂ = 0 := by linear_combination hp + hm
  have hy₂ := (mul_eq_zero.1 hy).resolve_left E.two_ne_zero
  apply hne
  rw [hy₂, mul_zero]

theorem one_add_cross_ne_zero {x₁ y₁ x₂ y₂ : K} (h₁ : E.OnCurve x₁ y₁) (h₂ : E.OnCurve x₂ y₂) :
    1 + E.d * x₁ * x₂ * y₁ * y₂ ≠ 0 := by
  intro h0
  apply cross_sq_ne_one h₁ h₂
  linear_combination (E.d * x₁ * x₂ * y₁ * y₂ - 1) * h0

theorem one_sub_cross_ne_zero {x₁ y₁ x₂ y₂ : K} (h₁ : E.OnCurve x₁ y₁) (h₂ : E.OnCurve x₂ y₂) :
    1 - E.d * x₁ * x₂ * y₁ * y₂ ≠ 0 := by
  intro h0
  apply cross_sq_ne_one h₁ h₂
  linear_combination (-E.d * x₁ * x₂ * y₁ * y₂ - 1) * h0

theorem onCurve_div {X Y p m : K} (hp : p ≠ 0) (hm : m ≠ 0)
    (h : E.a * X ^ 2 * m ^ 2 + Y ^ 2 * p ^ 2 = p ^ 2 * m ^ 2 + E.d * X ^ 2 * Y ^ 2) :
    E.OnCurve (X / p) (Y / m) := by
  rw [OnCurve]
  field_simp
  linear_combination h

namespace Point

instance : Zero E.Point := ⟨0, 1, by rw [OnCurve]; ring⟩

instance : Neg E.Point :=
  ⟨fun P => ⟨-P.x, P.y, by
    have h := P.on
    rw [OnCurve] at h ⊢
    linear_combination h⟩⟩

theorem on_add (P Q : E.Point) :
    E.OnCurve ((P.x * Q.y + Q.x * P.y) / (1 + E.d * P.x * Q.x * P.y * Q.y))
      ((P.y * Q.y - E.a * P.x * Q.x) / (1 - E.d * P.x * Q.x * P.y * Q.y)) := by
  apply onCurve_div (one_add_cross_ne_zero P.on Q.on) (one_sub_cross_ne_zero P.on Q.on)
  have hP := P.on
  have hQ := Q.on
  rw [OnCurve] at hP hQ
  grind

instance : Add E.Point := ⟨fun P Q => ⟨_, _, P.on_add Q⟩⟩

@[simp] theorem zero_x : (0 : E.Point).x = 0 := rfl
@[simp] theorem zero_y : (0 : E.Point).y = 1 := rfl
@[simp] theorem neg_x (P : E.Point) : (-P).x = -P.x := rfl
@[simp] theorem neg_y (P : E.Point) : (-P).y = P.y := rfl

theorem add_x (P Q : E.Point) :
    (P + Q).x = (P.x * Q.y + Q.x * P.y) / (1 + E.d * P.x * Q.x * P.y * Q.y) := rfl

theorem add_y (P Q : E.Point) :
    (P + Q).y = (P.y * Q.y - E.a * P.x * Q.x) / (1 - E.d * P.x * Q.x * P.y * Q.y) := rfl

theorem add_x_mul (P Q : E.Point) :
    (P + Q).x * (1 + E.d * P.x * Q.x * P.y * Q.y) = P.x * Q.y + Q.x * P.y :=
  div_mul_cancel₀ _ (one_add_cross_ne_zero P.on Q.on)

theorem add_y_mul (P Q : E.Point) :
    (P + Q).y * (1 - E.d * P.x * Q.x * P.y * Q.y) = P.y * Q.y - E.a * P.x * Q.x :=
  div_mul_cancel₀ _ (one_sub_cross_ne_zero P.on Q.on)

theorem add_comm' (P Q : E.Point) : P + Q = Q + P := by
  apply Point.ext
  · rw [add_x, add_x]
    congr 1 <;> ring
  · rw [add_y, add_y]
    congr 1 <;> ring

theorem zero_add' (P : E.Point) : 0 + P = P := by
  apply Point.ext
  · rw [add_x, zero_x, zero_y]
    simp
  · rw [add_y, zero_x, zero_y]
    simp

theorem neg_add_cancel' (P : E.Point) : -P + P = 0 := by
  have hP := P.on
  rw [OnCurve] at hP
  apply Point.ext
  · rw [add_x, neg_x, neg_y, zero_x, div_eq_zero_iff]
    left
    ring
  · have hden := one_sub_cross_ne_zero (-P).on P.on
    rw [neg_x, neg_y] at hden
    rw [add_y, neg_x, neg_y, zero_y, div_eq_one_iff_eq hden]
    linear_combination hP

/-- The denominators of `(P + Q) + R`, cleared of those of `P + Q`. -/
def clearedX (P Q R : E.Point) : K :=
  (1 + E.d * P.x * Q.x * P.y * Q.y) * (1 - E.d * P.x * Q.x * P.y * Q.y) +
    E.d * (P.x * Q.y + Q.x * P.y) * R.x * (P.y * Q.y - E.a * P.x * Q.x) * R.y

def clearedY (P Q R : E.Point) : K :=
  (1 + E.d * P.x * Q.x * P.y * Q.y) * (1 - E.d * P.x * Q.x * P.y * Q.y) -
    E.d * (P.x * Q.y + Q.x * P.y) * R.x * (P.y * Q.y - E.a * P.x * Q.x) * R.y

theorem clearedX_ne_zero (P Q R : E.Point) : clearedX P Q R ≠ 0 := by
  have hp := one_add_cross_ne_zero P.on Q.on
  have hm := one_sub_cross_ne_zero P.on Q.on
  have h := one_add_cross_ne_zero (P + Q).on R.on
  have heq : clearedX P Q R = (1 + E.d * P.x * Q.x * P.y * Q.y) *
      (1 - E.d * P.x * Q.x * P.y * Q.y) *
      (1 + E.d * (P + Q).x * R.x * (P + Q).y * R.y) := by
    rw [clearedX, ← add_x_mul, ← add_y_mul]
    ring
  rw [heq]
  exact mul_ne_zero (mul_ne_zero hp hm) h

theorem clearedY_ne_zero (P Q R : E.Point) : clearedY P Q R ≠ 0 := by
  have hp := one_add_cross_ne_zero P.on Q.on
  have hm := one_sub_cross_ne_zero P.on Q.on
  have h := one_sub_cross_ne_zero (P + Q).on R.on
  have heq : clearedY P Q R = (1 + E.d * P.x * Q.x * P.y * Q.y) *
      (1 - E.d * P.x * Q.x * P.y * Q.y) *
      (1 - E.d * (P + Q).x * R.x * (P + Q).y * R.y) := by
    rw [clearedY, ← add_x_mul, ← add_y_mul]
    ring
  rw [heq]
  exact mul_ne_zero (mul_ne_zero hp hm) h

theorem add_add_x (P Q R : E.Point) :
    (P + Q + R).x * clearedX P Q R =
      (P.x * Q.y + Q.x * P.y) * R.y * (1 - E.d * P.x * Q.x * P.y * Q.y) +
        R.x * (P.y * Q.y - E.a * P.x * Q.x) * (1 + E.d * P.x * Q.x * P.y * Q.y) := by
  have h := add_x_mul (P + Q) R
  rw [clearedX, ← add_x_mul, ← add_y_mul]
  linear_combination (1 + E.d * P.x * Q.x * P.y * Q.y) * (1 - E.d * P.x * Q.x * P.y * Q.y) * h

theorem add_add_y (P Q R : E.Point) :
    (P + Q + R).y * clearedY P Q R =
      (P.y * Q.y - E.a * P.x * Q.x) * R.y * (1 + E.d * P.x * Q.x * P.y * Q.y) -
        E.a * (P.x * Q.y + Q.x * P.y) * R.x * (1 - E.d * P.x * Q.x * P.y * Q.y) := by
  have h := add_y_mul (P + Q) R
  rw [clearedY, ← add_x_mul, ← add_y_mul]
  linear_combination (1 + E.d * P.x * Q.x * P.y * Q.y) * (1 - E.d * P.x * Q.x * P.y * Q.y) * h

theorem add_assoc_x (P Q R : E.Point) : (P + Q + R).x = (Q + R + P).x := by
  have hP := P.on
  have hQ := Q.on
  have hR := R.on
  rw [OnCurve] at hP hQ hR
  apply mul_right_cancel₀ (mul_ne_zero (clearedX_ne_zero P Q R) (clearedX_ne_zero Q R P))
  rw [← mul_assoc, add_add_x, mul_comm (clearedX P Q R), ← mul_assoc, add_add_x, clearedX,
    clearedX]
  grind

theorem add_assoc_y (P Q R : E.Point) : (P + Q + R).y = (Q + R + P).y := by
  have hP := P.on
  have hQ := Q.on
  have hR := R.on
  rw [OnCurve] at hP hQ hR
  apply mul_right_cancel₀ (mul_ne_zero (clearedY_ne_zero P Q R) (clearedY_ne_zero Q R P))
  rw [← mul_assoc, add_add_y, mul_comm (clearedY P Q R), ← mul_assoc, add_add_y, clearedY,
    clearedY]
  grind

theorem add_assoc' (P Q R : E.Point) : P + Q + R = P + (Q + R) := by
  rw [add_comm' P (Q + R)]
  exact Point.ext (add_assoc_x P Q R) (add_assoc_y P Q R)

/-- The points of the curve form a commutative group. -/
instance : AddCommGroup E.Point where
  add_assoc := add_assoc'
  zero_add := zero_add'
  add_zero P := by rw [add_comm', zero_add']
  nsmul := nsmulRec
  zsmul := zsmulRec
  neg_add_cancel := neg_add_cancel'
  add_comm := add_comm'

end Point

/-- Integers `(X : Y : Z)` that stand for a point `(X / Z, Y / Z)` modulo `m`. -/
structure Homogeneous where
  X : ℤ
  Y : ℤ
  Z : ℤ
  deriving DecidableEq

namespace Homogeneous

def zero : Homogeneous := ⟨0, 1, 1⟩

def add (a d m : ℤ) (S T : Homogeneous) : Homogeneous :=
  let A := S.Z * T.Z % m
  let B := A * A % m
  let C := d * (S.X * T.X % m) * (S.Y * T.Y % m) % m
  ⟨A * ((B - C) * (S.X * T.Y + T.X * S.Y) % m) % m,
    A * ((B + C) * (S.Y * T.Y - a * S.X * T.X) % m) % m,
    (B - C) * (B + C) % m⟩

/-- Multiples over the lowest `k` bits of the factor. -/
def smul (a d m : ℤ) (T : Homogeneous) : ℕ → ℕ → Homogeneous
  | 0, _ => zero
  | k + 1, e =>
    let S := smul a d m T k (e / 2)
    if e % 2 = 1 then add a d m (add a d m S S) T else add a d m S S

/-- The integers give the coordinates of the point. -/
def Stands (T : Homogeneous) (P : E.Point) : Prop :=
  (T.Z : K) ≠ 0 ∧ (T.X : K) = P.x * T.Z ∧ (T.Y : K) = P.y * T.Z

theorem stands_zero : zero.Stands (0 : E.Point) := by
  simp [Stands, zero]

variable {a d m : ℤ}

theorem Stands.add {S T : Homogeneous} {P Q : E.Point} (ha : (a : K) = E.a) (hd : (d : K) = E.d)
    (hm : (m : K) = 0) (hS : S.Stands P) (hT : T.Stands Q) : (add a d m S T).Stands (P + Q) := by
  obtain ⟨hSz, hSx, hSy⟩ := hS
  obtain ⟨hTz, hTx, hTy⟩ := hT
  have hp := one_add_cross_ne_zero P.on Q.on
  have hn := one_sub_cross_ne_zero P.on Q.on
  have hZ : ((Homogeneous.add a d m S T).Z : K) = (S.Z * T.Z) ^ 4 *
      ((1 - E.d * P.x * Q.x * P.y * Q.y) * (1 + E.d * P.x * Q.x * P.y * Q.y)) := by
    simp only [Homogeneous.add, cast_emod hm, Int.cast_mul, Int.cast_add, Int.cast_sub, hd, hSx,
      hSy, hTx, hTy]
    ring
  have hX : ((Homogeneous.add a d m S T).X : K) = (S.Z * T.Z) ^ 4 *
      ((1 - E.d * P.x * Q.x * P.y * Q.y) * (P.x * Q.y + Q.x * P.y)) := by
    simp only [Homogeneous.add, cast_emod hm, Int.cast_mul, Int.cast_add, Int.cast_sub, hd, hSx,
      hSy, hTx, hTy]
    ring
  have hY : ((Homogeneous.add a d m S T).Y : K) = (S.Z * T.Z) ^ 4 *
      ((1 + E.d * P.x * Q.x * P.y * Q.y) * (P.y * Q.y - E.a * P.x * Q.x)) := by
    simp only [Homogeneous.add, cast_emod hm, Int.cast_mul, Int.cast_add, Int.cast_sub, hd, ha,
      hSx, hSy, hTx, hTy]
    ring
  refine ⟨?_, ?_, ?_⟩
  · rw [hZ]
    exact mul_ne_zero (pow_ne_zero 4 (mul_ne_zero hSz hTz)) (mul_ne_zero hn hp)
  · rw [hX, hZ, ← Point.add_x_mul]
    ring
  · rw [hY, hZ, ← Point.add_y_mul]
    ring

theorem Stands.smul {T : Homogeneous} {P : E.Point} (ha : (a : K) = E.a) (hd : (d : K) = E.d)
    (hm : (m : K) = 0) (hT : T.Stands P) (k e : ℕ) (he : e < 2 ^ k) :
    (smul a d m T k e).Stands (e • P) := by
  induction k generalizing e with
  | zero =>
    have h0 : e = 0 := by simpa using he
    rw [h0, zero_smul]
    exact stands_zero
  | succ k ih =>
    have hhalf : e / 2 < 2 ^ k := by
      rw [pow_succ] at he
      omega
    have hdouble := (ih _ hhalf).add ha hd hm (ih _ hhalf)
    rw [← add_smul, ← two_mul] at hdouble
    rw [Homogeneous.smul]
    by_cases hodd : e % 2 = 1
    · have hsplit : 2 * (e / 2) + 1 = e := by omega
      have hadd := hdouble.add ha hd hm hT
      rw [← succ_nsmul, hsplit] at hadd
      rw [if_pos hodd]
      exact hadd
    · have hsplit : 2 * (e / 2) = e := by omega
      rw [hsplit] at hdouble
      rw [if_neg hodd]
      exact hdouble

theorem Stands.eq_zero {T : Homogeneous} {P : E.Point} (h : T.Stands P) (hx : (T.X : K) = 0)
    (hy : (T.Y : K) = T.Z) : P = 0 := by
  obtain ⟨hz, hX, hY⟩ := h
  apply Point.ext
  · rw [hx] at hX
    exact (mul_eq_zero.1 hX.symm).resolve_right hz
  · rw [hy] at hY
    exact (mul_right_cancel₀ hz (hY.symm.trans (one_mul _).symm))

end Homogeneous
end EdwardsCurve
end Suprime
