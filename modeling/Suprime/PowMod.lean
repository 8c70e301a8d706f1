import Mathlib.NumberTheory.LucasPrimality
import Mathlib.Data.List.Prime
import Mathlib.Data.Nat.Log
import Mathlib.Tactic.Ring

namespace Suprime
set_option autoImplicit true

/-- The power modulo `m` over the lowest `k` bits of the exponent. -/
def powBits (m : ℤ) : ℕ → ℤ → ℕ → ℤ
  | 0, _, _ => 1 % m
  | k + 1, x, e =>
    if e % 2 = 1 then powBits m k (x * x % m) (e / 2) * x % m
    else powBits m k (x * x % m) (e / 2)

/-- `pow(x, e, m)` -/
def powMod (x : ℤ) (e : ℕ) (m : ℤ) : ℤ := powBits m (e.log2 + 1) x e

theorem powBits_eq (m : ℤ) (k : ℕ) (x : ℤ) (e : ℕ) (he : e < 2 ^ k) :
    powBits m k x e = x ^ e % m := by
  induction k generalizing x e with
  | zero =>
    have h0 : e = 0 := by simpa using he
    rw [h0, powBits, pow_zero]
  | succ k ih =>
    have hhalf : e / 2 < 2 ^ k := by
      rw [pow_succ] at he
      omega
    have hsq : (x * x % m) ^ (e / 2) % m = x ^ (2 * (e / 2)) % m := by
      rw [Int.ModEq.pow (e / 2) (Int.mod_modEq (x * x) m), pow_mul, sq]
    rw [powBits, ih _ _ hhalf, hsq]
    by_cases hodd : e % 2 = 1
    · have hsplit : 2 * (e / 2) + 1 = e := by omega
      rw [if_pos hodd, Int.mul_emod, Int.emod_emod, ← Int.mul_emod, ← pow_succ, hsplit]
    · have hsplit : 2 * (e / 2) = e := by omega
      rw [if_neg hodd, hsplit]

theorem powMod_eq (x : ℤ) (e : ℕ) (m : ℤ) : powMod x e m = x ^ e % m :=
  powBits_eq m _ x e Nat.lt_log2_self

theorem cast_emod [CommRing R] {m : ℤ} (hm : (m : R) = 0) (x : ℤ) : ((x % m : ℤ) : R) = x := by
  have h := congrArg (Int.cast (R := R)) (Int.mul_ediv_add_emod x m)
  rw [Int.cast_add, Int.cast_mul, hm, zero_mul, zero_add] at h
  exact h

theorem cast_powMod [CommRing R] {m : ℤ} (hm : (m : R) = 0) (x : ℤ) (e : ℕ) :
    ((powMod x e m : ℤ) : R) = (x : R) ^ e := by
  rw [powMod_eq, cast_emod hm, Int.cast_pow]

/-- Lucas's test of `p` with the witness `a` and the prime factors of `p - 1`. -/
def lucas (p a : ℕ) (factors : List ℕ) : Bool :=
  factors.prod == p - 1 && powMod a (p - 1) p == 1 &&
    factors.all fun f => powMod a ((p - 1) / f) p != 1

theorem cast_pow_eq_one_iff {p : ℕ} (hp : 1 < p) (a e : ℕ) :
    (a : ZMod p) ^ e = 1 ↔ powMod a e p = 1 := by
  have hone : (1 : ℤ) % p = 1 := Int.emod_eq_of_lt (by omega) (by exact_mod_cast hp)
  have h := ZMod.intCast_eq_intCast_iff' ((a : ℤ) ^ e) 1 p
  rw [hone] at h
  rw [powMod_eq, ← h]
  norm_cast

theorem prime_of_lucas {p : ℕ} (a : ℕ) (factors : List ℕ) (hp : 1 < p)
    (hfactors : ∀ f ∈ factors, f.Prime) (h : lucas p a factors = true) : p.Prime := by
  simp only [lucas, Bool.and_eq_true, beq_iff_eq, List.all_eq_true, bne_iff_ne] at h
  obtain ⟨⟨hprod, hone⟩, hpart⟩ := h
  apply lucas_primality p (a : ZMod p) ((cast_pow_eq_one_iff hp _ _).2 hone)
  intro f hf hdvd
  rw [← hprod] at hdvd
  obtain ⟨g, hg, hfg⟩ := (Prime.dvd_prod_iff hf.prime).1 hdvd
  have heq : f = g := (Nat.prime_dvd_prime_iff_eq hf (hfactors g hg)).1 hfg
  rw [Ne, cast_pow_eq_one_iff hp, heq]
  exact hpart g hg

end Suprime
