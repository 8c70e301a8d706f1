import Suprime.CurvePoints

namespace Suprime
set_option autoImplicit true

namespace Ed25519

theorem q_odd : (q : ℤ) % 2 = 1 := by norm_num [q]

theorem q_pos : (0 : ℤ) < q := by norm_num [q]

theorem emod_eq_zero_iff (x : ℤ) : x % q = 0 ↔ (x : ZMod q) = 0 := by
  rw [← Int.dvd_iff_emod_eq_zero, ← ZMod.intCast_zmod_eq_zero_iff_dvd]

theorem powMod_range (x : ℤ) (e : ℕ) : 0 ≤ powMod x e q ∧ powMod x e q < q := by
  rw [powMod_eq]
  exact ⟨Int.emod_nonneg _ q_pos.ne', Int.emod_lt_of_pos _ q_pos⟩

/-- The square root that `_xrecover` takes before it fixes the parity. -/
def rootOf (xx : ℤ) : ℤ :=
  let x := powMod xx ((q + 3) / 8) q
  if (x * x - xx) % q ≠ 0 then x * I % q else x

def evenRoot (x : ℤ) : ℤ := if x % 2 ≠ 0 then q - x else x

theorem xrecover_eq (y : ℤ) :
    xrecover y = evenRoot (rootOf ((y * y - 1) * inv (d * y * y + 1))) := rfl

theorem rootOf_range (xx : ℤ) : 0 ≤ rootOf xx ∧ rootOf xx < q := by
  simp only [rootOf]
  split
  · exact ⟨Int.emod_nonneg _ q_pos.ne', Int.emod_lt_of_pos _ q_pos⟩
  · exact powMod_range _ _

theorem evenRoot_range {x : ℤ} (h : 0 ≤ x ∧ x < q) : 0 ≤ evenRoot x ∧ evenRoot x < q := by
  rw [evenRoot]
  split <;> omega

theorem evenRoot_even (x : ℤ) : evenRoot x % 2 = 0 := by
  have hq := q_odd
  rw [evenRoot]
  split <;> omega

theorem cast_evenRoot (x : ℤ) :
    ((evenRoot x : ℤ) : ZMod q) = x ∨ ((evenRoot x : ℤ) : ZMod q) = -x := by
  rw [evenRoot]
  split
  · right
    rw [Int.cast_sub, cast_q, zero_sub]
  · left
    rfl

theorem pow_candidate (t : ZMod q) :
    ((t ^ 2) ^ ((q + 3) / 8)) ^ 2 = t ^ 2 ∨ ((t ^ 2) ^ ((q + 3) / 8)) ^ 2 = -t ^ 2 := by
  have hexp : 2 * ((q + 3) / 8 * 2) = q / 2 + 2 := by norm_num [q]
  rw [← pow_mul, ← pow_mul, hexp, pow_add]
  by_cases ht : t = 0
  · left
    rw [ht, zero_pow (Nat.succ_ne_zero 1), mul_zero]
  · obtain h | h := ZMod.pow_div_two_eq_neg_one_or_one q ht
    · left
      rw [h, one_mul]
    · right
      rw [h, neg_one_mul]

theorem rootOf_sq {xx : ℤ} {t : ZMod q} (h : (xx : ZMod q) = t ^ 2) :
    ((rootOf xx : ℤ) : ZMod q) ^ 2 = t ^ 2 := by
  have hcast : ((powMod xx ((q + 3) / 8) q : ℤ) : ZMod q) = (t ^ 2) ^ ((q + 3) / 8) := by
    rw [cast_powMod cast_q, h]
  have hcand := pow_candidate t
  rw [← hcast] at hcand
  simp only [rootOf, ne_eq, emod_eq_zero_iff]
  by_cases hroot : ((powMod xx ((q + 3) / 8) q * powMod xx ((q + 3) / 8) q - xx : ℤ) : ZMod q) = 0
  · rw [if_neg (not_not.2 hroot)]
    push_cast at hroot
    linear_combination hroot + h
  · rw [if_pos hroot, cast_emod cast_q, Int.cast_mul, mul_pow, I_mul_I]
    push_cast at hroot
    obtain hc | hc := hcand
    · exact absurd (by linear_combination hc - h) hroot
    · rw [hc]
      ring

theorem denominator_ne_zero (y : ZMod q) : (d : ℤ) * y * y + 1 ≠ 0 := by
  intro h0
  have hI := I_mul_I
  have hsq : ((I : ℤ) : ZMod q) ^ 2 = curve.d * y ^ 2 := by
    rw [hI, curve_d]
    linear_combination -h0
  have hy := EdwardsCurve.eq_zero_of_sq_eq hsq
  rw [hy, mul_zero, zero_add] at h0
  exact one_ne_zero h0

theorem cast_xrecover {y : ℤ} {T : curve.Point} (hy : (y : ZMod q) = T.y) :
    ((xrecover y : ℤ) : ZMod q) = T.x ∨ ((xrecover y : ℤ) : ZMod q) = -T.x := by
  have hden := denominator_ne_zero T.y
  have hT := T.on
  rw [EdwardsCurve.OnCurve, curve_a, curve_d] at hT
  have hxx : (((y * y - 1) * inv (d * y * y + 1) : ℤ) : ZMod q) = T.x ^ 2 := by
    push_cast [cast_inv]
    rw [hy, ← div_eq_mul_inv, div_eq_iff hden]
    linear_combination hT
  have hroot := sq_eq_sq_iff_eq_or_eq_neg.1 (rootOf_sq hxx)
  rw [xrecover_eq]
  obtain he | he := cast_evenRoot (rootOf ((y * y - 1) * inv (d * y * y + 1)))
  · rw [he]
    exact hroot
  · rw [he]
    obtain hr | hr := hroot
    · right
      rw [hr]
    · left
      rw [hr, neg_neg]

theorem xrecover_range (y : ℤ) : 0 ≤ xrecover y ∧ xrecover y < q := by
  rw [xrecover_eq]
  exact evenRoot_range (rootOf_range _)

theorem xrecover_even (y : ℤ) : xrecover y % 2 = 0 := by
  rw [xrecover_eq]
  exact evenRoot_even _

theorem bit_eq (s : List UInt8) (i : ℕ) : bit s i = ofLE s / 2 ^ i % 2 := by
  rw [← Nat.toNat_testBit]
  induction s generalizing i with
  | nil => simp [bit, ofLE]
  | cons b t ih =>
    have hb : b.toNat < 2 ^ 8 := b.toNat_lt
    have hsplit : ofLE (b :: t) = 2 ^ 8 * ofLE t + b.toNat := by
      rw [ofLE, add_comm]
      rfl
    rw [hsplit, Nat.testBit_two_pow_mul_add _ hb]
    by_cases hi : i < 8
    · have hdiv : i / 8 = 0 := Nat.div_eq_of_lt hi
      rw [if_pos hi, bit, hdiv, Nat.mod_eq_of_lt hi, Nat.and_one_is_mod, Nat.toNat_testBit,
        Nat.shiftRight_eq_div_pow]
      rfl
    · have hdiv : i / 8 = (i - 8) / 8 + 1 := by omega
      have hmod : i % 8 = (i - 8) % 8 := by omega
      rw [if_neg hi, ← ih, bit, hdiv, hmod]
      rfl

theorem bit_lt_two (s : List UInt8) (i : ℕ) : bit s i < 2 := by
  rw [bit_eq]
  exact Nat.mod_lt _ Nat.two_pos

theorem yBits_eq (s : List UInt8) : yBits s = ofLE s % 2 ^ 255 := by
  rw [yBits, Nat.one_shiftLeft, Nat.and_two_pow_sub_one_eq_mod]

theorem ofLE_eq_yBits {s : List UInt8} (hs : s.length = 32) :
    ofLE s = yBits s + bit s 255 * 2 ^ 255 := by
  have hlt := ofLE_lt s
  rw [hs] at hlt
  rw [yBits_eq, bit_eq]
  omega

theorem ofLE_encodepoint {x y : ℤ} (hx : 0 ≤ x) (hy : y < 2 ^ 255) :
    ofLE (encodepoint (x, y)) = y.toNat + (x % 2).toNat * 2 ^ 255 := by
  have hylt : y.toNat < 2 ^ 255 := by omega
  have hpar : x.toNat % 2 = (x % 2).toNat := by omega
  have hval : y.toNat ||| ((x.toNat &&& 1) <<< 255) = y.toNat + (x % 2).toNat * 2 ^ 255 := by
    rw [Nat.and_one_is_mod, Nat.shiftLeft_eq, mul_comm, Nat.or_comm,
      ← Nat.two_pow_add_eq_or_of_lt hylt, hpar]
    ring
  rw [encodepoint]
  simp only [hval]
  apply ofLE_toLE_of_lt
  omega

theorem length_encodepoint (P : ℤ × ℤ) : (encodepoint P).length = 32 := length_toLE _ _

/-- The bytes encode the point, possibly with coordinates that are not reduced. -/
structure Encodes (s : List UInt8) (T : curve.Point) : Prop where
  y : (yBits s : ZMod q) = T.y
  sign : T.x = 0 ∨ T.x.val % 2 = bit s 255

theorem eq_of_parity {a b : ZMod q} (h : a = b ∨ a = -b)
    (hpar : b = 0 ∨ a.val % 2 = b.val % 2) : a = b := by
  obtain h | h := h
  · exact h
  · obtain h0 | hpar := hpar
    · rw [h, h0, neg_zero]
    · by_cases h0 : b = 0
      · rw [h, h0, neg_zero]
      · have hodd := q_odd
        have hlt := ZMod.val_lt b
        rw [h, ZMod.neg_val, if_neg h0] at hpar
        omega

theorem eq_val {x : ℤ} {t : ZMod q} (h : (x : ZMod q) = t) (hx : 0 ≤ x ∧ x < q) : x = t.val := by
  rw [← emod_q_eq_val h, Int.emod_eq_of_lt hx.1 hx.2]

/-- The coordinate that `_decodepoint` recovers from `y` and the sign bit. -/
def signedRoot (y : ℤ) (b : ℕ) : ℤ := if xrecover y % 2 ≠ b then q - xrecover y else xrecover y

/-- The coordinates that `_decodepoint` checks. -/
def decoded (s : List UInt8) : ℤ × ℤ := (signedRoot (yBits s) (bit s 255), yBits s)

theorem decoded_fst (s : List UInt8) : (decoded s).1 = signedRoot (yBits s) (bit s 255) := by
  rw [decoded]

theorem decoded_snd (s : List UInt8) : (decoded s).2 = yBits s := by
  rw [decoded]

theorem decodepoint_eq (s : List UInt8) :
    decodepoint s = if isoncurve (decoded s) then some (decoded s) else none := rfl

theorem decodepoint_some {s : List UInt8} {P : ℤ × ℤ} (h : decodepoint s = some P) :
    P = decoded s ∧ isoncurve (decoded s) = true := by
  rw [decodepoint_eq] at h
  by_cases hon : isoncurve (decoded s) = true
  · rw [if_pos hon] at h
    injection h with h
    exact ⟨h.symm, hon⟩
  · rw [if_neg hon] at h
    exact absurd h (Option.some_ne_none P).symm

theorem signedRoot_range (y : ℤ) (b : ℕ) : 0 ≤ signedRoot y b ∧ signedRoot y b ≤ q := by
  have h := xrecover_range y
  rw [signedRoot]
  split <;> omega

theorem signedRoot_parity (y : ℤ) {b : ℕ} (hb : b < 2) : signedRoot y b % 2 = b := by
  have heven := xrecover_even y
  have hodd := q_odd
  rw [signedRoot]
  split <;> omega

theorem cast_signedRoot {y : ℤ} {T : curve.Point} (hy : (y : ZMod q) = T.y) (b : ℕ) :
    ((signedRoot y b : ℤ) : ZMod q) = T.x ∨ ((signedRoot y b : ℤ) : ZMod q) = -T.x := by
  have h := cast_xrecover hy
  rw [signedRoot]
  split
  · rw [Int.cast_sub, cast_q, zero_sub, neg_inj, neg_eq_iff_eq_neg]
    exact h.symm
  · exact h

theorem val_signedRoot_parity {y : ℤ} {b : ℕ} (hb : b < 2)
    (h0 : ((signedRoot y b : ℤ) : ZMod q) ≠ 0) :
    ((signedRoot y b : ℤ) : ZMod q).val % 2 = b := by
  have hrange := signedRoot_range y b
  have hpar := signedRoot_parity y hb
  have hne : signedRoot y b ≠ q := by
    intro heq
    apply h0
    rw [heq, cast_q]
  have hval := eq_val (rfl : ((signedRoot y b : ℤ) : ZMod q) = _) ⟨hrange.1, by omega⟩
  omega

theorem decodepoint_of_encodes {s : List UInt8} {T : curve.Point} (h : Encodes s T) :
    ∃ P, decodepoint s = some P ∧ Reads P T := by
  have hb := bit_lt_two s 255
  have hy : ((yBits s : ℤ) : ZMod q) = T.y := by
    rw [Int.cast_natCast]
    exact h.y
  have hsigned := cast_signedRoot hy (bit s 255)
  have hx : ((signedRoot (yBits s) (bit s 255) : ℤ) : ZMod q) = T.x := by
    apply eq_of_parity hsigned
    obtain h0 | hpar := h.sign
    · left
      exact h0
    · by_cases h0 : T.x = 0
      · left
        exact h0
      · right
        rw [hpar]
        apply val_signedRoot_parity hb
        obtain hr | hr := hsigned
        · rw [hr]
          exact h0
        · rw [hr]
          exact neg_ne_zero.2 h0
  have hreads : Reads (decoded s) T := by
    rw [Reads, decoded_fst, decoded_snd]
    exact ⟨hx, hy⟩
  have hon : isoncurve (decoded s) = true := by
    rw [isoncurve_iff, hreads.1, hreads.2]
    exact T.on
  refine ⟨decoded s, ?_, hreads⟩
  rw [decodepoint_eq, if_pos hon]

theorem encodes_of_decodepoint {s : List UInt8} {P : ℤ × ℤ} (h : decodepoint s = some P) :
    ∃ T, Reads P T ∧ Encodes s T := by
  obtain ⟨hP, hon⟩ := decodepoint_some h
  rw [hP]
  refine ⟨⟨(decoded s).1, (decoded s).2, (isoncurve_iff _).1 hon⟩, ⟨rfl, rfl⟩, ?_, ?_⟩
  · simp only [decoded_snd, Int.cast_natCast]
  · by_cases h0 : (((decoded s).1 : ℤ) : ZMod q) = 0
    · left
      exact h0
    · right
      rw [decoded_fst] at h0
      simp only [decoded_fst]
      exact val_signedRoot_parity (bit_lt_two s 255) h0

theorem Encodes.unique {s : List UInt8} {T U : curve.Point} (hT : Encodes s T)
    (hU : Encodes s U) : T = U := by
  obtain ⟨P, hP, hreadT⟩ := decodepoint_of_encodes hT
  obtain ⟨P', hP', hreadU⟩ := decodepoint_of_encodes hU
  rw [← Option.some.inj (hP.symm.trans hP')] at hreadU
  exact hreadT.unique hreadU

theorem encodepoint_of_decodepoint {s : List UInt8} {P : ℤ × ℤ} (hs : s.length = 32)
    (h : decodepoint s = some P) : encodepoint P = s := by
  obtain ⟨hP, -⟩ := decodepoint_some h
  have hx := (signedRoot_range (yBits s) (bit s 255)).1
  have hpar := signedRoot_parity (yBits s) (bit_lt_two s 255)
  have hlt := Nat.mod_lt (ofLE s) (Nat.two_pow_pos 255)
  rw [← yBits_eq] at hlt
  have hylt : (yBits s : ℤ) < 2 ^ 255 := by exact_mod_cast hlt
  apply ofLE_injective ((length_encodepoint _).trans hs.symm)
  rw [hP, decoded, ofLE_encodepoint hx hylt, ofLE_eq_yBits hs, hpar, Int.toNat_natCast,
    Int.toNat_natCast]

theorem val_lt (t : ZMod q) : t.val < 2 ^ 255 :=
  lt_of_lt_of_le (ZMod.val_lt t) (by norm_num [q])

theorem encodes_encodepoint (T : curve.Point) : Encodes (encodepoint (reduced T)) T := by
  have hy := val_lt T.y
  have hcode : ofLE (encodepoint (reduced T)) = T.y.val + T.x.val % 2 * 2 ^ 255 := by
    have hylt : ((T.y.val : ℕ) : ℤ) < 2 ^ 255 := by exact_mod_cast hy
    rw [reduced, ofLE_encodepoint (Int.natCast_nonneg T.x.val) hylt, Int.toNat_natCast]
    rfl
  have hpar := Nat.mod_lt T.x.val Nat.two_pos
  refine ⟨?_, ?_⟩
  · have hbits : yBits (encodepoint (reduced T)) = T.y.val := by
      rw [yBits_eq, hcode]
      omega
    rw [hbits, ZMod.natCast_zmod_val]
  · right
    rw [bit_eq, hcode]
    omega

end Ed25519
end Suprime
