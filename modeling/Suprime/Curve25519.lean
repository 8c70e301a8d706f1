import Suprime.Ed25519
import Suprime.EdwardsCurve
import Mathlib.NumberTheory.LegendreSymbol.Basic
import Mathlib.FieldTheory.Finite.Basic
import Mathlib.Tactic.NormNum.Prime

namespace Suprime
set_option autoImplicit true

namespace Ed25519

instance : Fact q.Prime := ⟨prime_q⟩

theorem cast_q : ((q : ℤ) : ZMod q) = 0 := by
  rw [Int.cast_natCast, ZMod.natCast_self]

theorem cast_inv (x : ℤ) : ((inv x : ℤ) : ZMod q) = (x : ZMod q)⁻¹ := by
  rw [inv, cast_powMod cast_q]
  by_cases hx : (x : ZMod q) = 0
  · rw [hx, inv_zero, zero_pow]
    norm_num [q]
  · apply eq_inv_of_mul_eq_one_left
    have hstep : q - 2 + 1 = q - 1 := by norm_num [q]
    rw [← pow_succ, hstep]
    exact ZMod.pow_card_sub_one_eq_one hx

theorem I_mul_I : ((I : ℤ) : ZMod q) ^ 2 = -1 := by
  have hcast := cast_emod cast_q (I ^ 2 + 1)
  rw [powers_mod_q.1, Int.cast_zero, Int.cast_add, Int.cast_pow, Int.cast_one] at hcast
  linear_combination -hcast

theorem d_pow_half : ((d : ℤ) : ZMod q) ^ (q / 2) = -1 := by
  rw [← cast_powMod cast_q, powers_mod_q.2, Int.cast_sub, cast_q, Int.cast_one, zero_sub]

theorem two_ne_zero' : (2 : ZMod q) ≠ 0 := by
  have h : ((2 : ℕ) : ZMod q) ≠ 0 := by
    rw [Ne, ZMod.natCast_eq_zero_iff]
    intro hdvd
    have hle := Nat.le_of_dvd Nat.two_pos hdvd
    norm_num [q] at hle
  exact_mod_cast h

theorem d_nonsquare : ¬ IsSquare ((d : ℤ) : ZMod q) := by
  intro hsq
  have hd : ((d : ℤ) : ZMod q) ≠ 0 := by
    intro h0
    have h := d_pow_half
    rw [h0, zero_pow (by norm_num [q])] at h
    exact one_ne_zero (neg_eq_zero.1 h.symm)
  have hone := (ZMod.euler_criterion q hd).1 hsq
  rw [d_pow_half] at hone
  apply two_ne_zero'
  linear_combination -hone

/-- The curve of the signatures, over the integers modulo `_q`. -/
def curve : EdwardsCurve (ZMod q) where
  a := -1
  d := (d : ℤ)
  root := (I : ℤ)
  root_sq := I_mul_I
  d_nonsquare := d_nonsquare
  two_ne_zero := two_ne_zero'

@[simp] theorem curve_a : curve.a = -1 := rfl
@[simp] theorem curve_d : curve.d = (d : ℤ) := rfl

end Ed25519
end Suprime
