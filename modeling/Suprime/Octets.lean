import Mathlib.Tactic.Ring
import Mathlib.Data.Nat.Digits.Lemmas

namespace Suprime
set_option autoImplicit true

/-- `int.from_bytes(b, "little")` -/
def ofLE : List UInt8 → ℕ
  | [] => 0
  | b :: t => b.toNat + 256 * ofLE t

/-- `n.to_bytes(k, "little")` for `n` below `256 ^ k`. -/
def toLE : ℕ → ℕ → List UInt8
  | 0, _ => []
  | k + 1, n => UInt8.ofNat n :: toLE k (n / 256)

@[simp] theorem length_toLE (k n : ℕ) : (toLE k n).length = k := by
  induction k generalizing n with
  | zero => rfl
  | succ k ih => rw [toLE, List.length_cons, ih]

theorem ofLE_lt (l : List UInt8) : ofLE l < 256 ^ l.length := by
  induction l with
  | nil => exact Nat.one_pos
  | cons b t ih =>
    have hb := b.toNat_lt
    rw [ofLE, List.length_cons, pow_succ]
    omega

theorem ofLE_toLE (k n : ℕ) : ofLE (toLE k n) = n % 256 ^ k := by
  induction k generalizing n with
  | zero => exact (Nat.mod_one n).symm
  | succ k ih =>
    have hbyte : (UInt8.ofNat n).toNat = n % 256 := UInt8.toNat_ofNat'
    rw [toLE, ofLE, ih, hbyte, pow_succ', Nat.mod_mul]

theorem ofLE_toLE_of_lt {k n : ℕ} (h : n < 256 ^ k) : ofLE (toLE k n) = n := by
  rw [ofLE_toLE, Nat.mod_eq_of_lt h]

theorem toLE_ofLE (l : List UInt8) : toLE l.length (ofLE l) = l := by
  induction l with
  | nil => rfl
  | cons b t ih =>
    have hb := b.toNat_lt
    have hdiv : (b.toNat + 256 * ofLE t) / 256 = ofLE t := by omega
    have hbyte : UInt8.ofNat (b.toNat + 256 * ofLE t) = b := by
      apply UInt8.toNat_inj.1
      rw [UInt8.toNat_ofNat']
      omega
    rw [List.length_cons, ofLE, toLE, hdiv, ih, hbyte]

theorem ofLE_injective {l m : List UInt8} (hlen : l.length = m.length) (h : ofLE l = ofLE m) :
    l = m := by
  rw [← toLE_ofLE l, ← toLE_ofLE m, hlen, h]

end Suprime
