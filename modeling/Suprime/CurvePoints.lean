import Suprime.Curve25519

namespace Suprime
set_option autoImplicit true

namespace Ed25519

/-- The pair of integers has the coordinates of the point modulo `_q`. -/
def Reads (P : ℤ × ℤ) (T : curve.Point) : Prop :=
  (P.1 : ZMod q) = T.x ∧ (P.2 : ZMod q) = T.y

def reduced (T : curve.Point) : ℤ × ℤ := (T.x.val, T.y.val)

theorem cast_val (t : ZMod q) : ((t.val : ℤ) : ZMod q) = t := by
  rw [Int.cast_natCast, ZMod.natCast_zmod_val]

theorem reduced_zero : reduced 0 = (0, 1) := by
  rw [reduced, EdwardsCurve.Point.zero_x, EdwardsCurve.Point.zero_y, ZMod.val_zero, ZMod.val_one]
  rfl

theorem reads_reduced (T : curve.Point) : Reads (reduced T) T := ⟨cast_val _, cast_val _⟩

theorem Reads.unique {P : ℤ × ℤ} {T U : curve.Point} (hT : Reads P T) (hU : Reads P U) : T = U :=
  EdwardsCurve.Point.ext (hT.1.symm.trans hU.1) (hT.2.symm.trans hU.2)

theorem reduced_injective {T U : curve.Point} (h : reduced T = reduced U) : T = U := by
  have hU := reads_reduced U
  rw [← h] at hU
  exact (reads_reduced T).unique hU

theorem emod_q_eq_val {x : ℤ} {t : ZMod q} (h : (x : ZMod q) = t) : x % q = t.val := by
  rw [← h, ZMod.val_intCast]

theorem edwards_eq {P Q : ℤ × ℤ} {T U : curve.Point} (hP : Reads P T) (hQ : Reads Q U) :
    edwards P Q = reduced (T + U) := by
  obtain ⟨x1, y1⟩ := P
  obtain ⟨x2, y2⟩ := Q
  obtain ⟨hx1, hy1⟩ := hP
  obtain ⟨hx2, hy2⟩ := hQ
  simp only at hx1 hy1 hx2 hy2
  apply Prod.ext
  · apply emod_q_eq_val
    rw [EdwardsCurve.Point.add_x, div_eq_mul_inv]
    push_cast [cast_inv]
    rw [hx1, hx2, hy1, hy2, curve_d]
  · apply emod_q_eq_val
    rw [EdwardsCurve.Point.add_y, div_eq_mul_inv, curve_a]
    push_cast [cast_inv]
    rw [hx1, hx2, hy1, hy2, curve_d]
    ring

theorem scalarmult_eq {P : ℤ × ℤ} {T : curve.Point} (hP : Reads P T) (e : ℕ) :
    scalarmult P e = reduced (e • T) := by
  induction e using Nat.strong_induction_on with
  | h e ih =>
    rw [scalarmult]
    by_cases h0 : e = 0
    · rw [if_pos h0, h0, zero_smul, reduced_zero]
    · have hhalf := ih (e / 2) (by omega)
      have hread := reads_reduced ((e / 2) • T)
      have hdouble := edwards_eq hread hread
      rw [← add_smul, ← two_mul] at hdouble
      simp only [if_neg h0, hhalf, hdouble, Nat.and_one_is_mod]
      by_cases hodd : e % 2 = 1
      · have hsplit : 2 * (e / 2) + 1 = e := by omega
        have hne : e % 2 ≠ 0 := by omega
        rw [if_pos hne, edwards_eq (reads_reduced _) hP, ← succ_nsmul, hsplit]
      · have hsplit : 2 * (e / 2) = e := by omega
        have heven : ¬ e % 2 ≠ 0 := by omega
        rw [if_neg heven, hsplit]

theorem isoncurve_iff (P : ℤ × ℤ) : isoncurve P = true ↔ curve.OnCurve P.1 P.2 := by
  obtain ⟨x, y⟩ := P
  rw [isoncurve, beq_iff_eq, ← Int.dvd_iff_emod_eq_zero, ← ZMod.intCast_zmod_eq_zero_iff_dvd,
    EdwardsCurve.OnCurve, curve_a, curve_d]
  push_cast
  constructor
  · intro h
    linear_combination h
  · intro h
    linear_combination h

open EdwardsCurve (Homogeneous)

def baseCoords : Homogeneous := ⟨B.1, B.2, 1⟩

/-- Homogeneous coordinates of the multiple of the base point by the upper bits of `_l`. -/
def upperCoords : Homogeneous :=
  ⟨31205013447334451179303523406464034032603827611847086591040961435450280442264,
    26606217374181091851443074205874211197137920559838373667654675833185416144341,
    27400510441557382715277535104543661508334405965604642181619716659112398755860⟩

/-- Homogeneous coordinates of the multiple of the base point by `_l`. -/
def orderCoords : Homogeneous :=
  Homogeneous.add (-1) d q (Homogeneous.smul (-1) d q upperCoords 127 (2 ^ 126))
    (Homogeneous.smul (-1) d q baseCoords 126 (l % 2 ^ 126))

theorem coords_evaluated : isoncurve B = true ∧
    Homogeneous.smul (-1) d q baseCoords 127 (l / 2 ^ 126) = upperCoords ∧
    orderCoords.X = 0 ∧ orderCoords.Y = orderCoords.Z := by
  decide +kernel

def base : curve.Point := ⟨B.1, B.2, (isoncurve_iff B).1 coords_evaluated.1⟩

theorem reads_B : Reads B base := ⟨rfl, rfl⟩

theorem stands_baseCoords : baseCoords.Stands base := by
  refine ⟨?_, ?_, ?_⟩
  · rw [baseCoords, Int.cast_one]
    exact one_ne_zero
  · rw [baseCoords, Int.cast_one, mul_one]
    rfl
  · rw [baseCoords, Int.cast_one, mul_one]
    rfl

theorem stands_orderCoords : orderCoords.Stands (l • base) := by
  have ha : ((-1 : ℤ) : ZMod q) = curve.a := by
    rw [Int.cast_neg, Int.cast_one, curve_a]
  have hupper := stands_baseCoords.smul ha curve_d.symm cast_q 127 (l / 2 ^ 126)
    (by norm_num [l])
  rw [coords_evaluated.2.1] at hupper
  have hshift := hupper.smul ha curve_d.symm cast_q 127 (2 ^ 126) (by norm_num)
  have hlower := stands_baseCoords.smul ha curve_d.symm cast_q 126 (l % 2 ^ 126)
    (by norm_num [l])
  have hsum := hshift.add ha curve_d.symm cast_q hlower
  rw [← mul_smul, ← add_smul, Nat.div_add_mod] at hsum
  exact hsum

theorem l_smul_base : l • base = 0 := by
  obtain ⟨-, -, hx, hy⟩ := coords_evaluated
  apply stands_orderCoords.eq_zero
  · rw [hx, Int.cast_zero]
  · rw [hy]

end Ed25519
end Suprime
