import Mathlib.Data.Nat.Digits.Defs
import Mathlib.Data.Nat.Size

namespace Suprime
set_option autoImplicit true

/-- The zero bits in front of a number whose digits have `w` bits each, the highest first. -/
def leadingZeros (w : ℕ) : List ℕ → ℕ
  | [] => 0
  | d :: ds => if d = 0 then w + leadingZeros w ds else w - d.size

theorem foldl_digits (b : ℕ) (ds : List ℕ) :
    ds.foldl (fun n d => n * b + d) 0 = Nat.ofDigits b ds.reverse := by
  rw [Nat.ofDigits_eq_foldr, List.foldr_reverse]
  congr 1
  funext n d
  rw [Nat.cast_id, mul_comm, add_comm]

theorem size_add_two_pow_mul (hd : d ≠ 0) (hr : r < 2 ^ k) :
    (r + 2 ^ k * d).size = d.size + k := by
  obtain ⟨s, hs⟩ := Nat.exists_eq_succ_of_ne_zero (Nat.size_eq_zero.not.2 hd)
  apply le_antisymm
  · rw [Nat.size_le, pow_add, mul_comm (2 ^ d.size)]
    calc
      r + 2 ^ k * d < 2 ^ k + 2 ^ k * d := Nat.add_lt_add_right hr _
      _ = 2 ^ k * (d + 1) := by rw [mul_add, mul_one, add_comm]
      _ ≤ 2 ^ k * 2 ^ d.size := Nat.mul_le_mul_left _ (Nat.lt_size_self d)
  · have hlow : 2 ^ s ≤ d := Nat.lt_size.1 (hs ▸ Nat.lt_succ_self s)
    have hlt : s + k < (r + 2 ^ k * d).size := by
      rw [Nat.lt_size, pow_add, mul_comm (2 ^ s)]
      exact (Nat.mul_le_mul_left _ hlow).trans (Nat.le_add_left _ _)
    omega

theorem leadingZeros_add_size {ds : List ℕ} (hw : 0 < w) (h : ∀ d ∈ ds, d < 2 ^ w) :
    leadingZeros w ds + (Nat.ofDigits (2 ^ w) ds.reverse).size = w * ds.length := by
  induction ds with
  | nil => rfl
  | cons d ds ih =>
    have hrest : ∀ x ∈ ds, x < 2 ^ w := fun x hx => h x (List.mem_cons_of_mem _ hx)
    rw [leadingZeros, List.length_cons, Nat.mul_succ]
    by_cases hd : d = 0
    · rw [if_pos hd, hd, Nat.ofDigits_reverse_zero_cons, ← ih hrest]
      omega
    · have hlt : Nat.ofDigits (2 ^ w) ds.reverse < 2 ^ (w * ds.length) := by
        rw [pow_mul, ← List.length_reverse]
        apply Nat.ofDigits_lt_base_pow_length (Nat.one_lt_two_pow hw.ne')
        exact fun x hx => hrest x (List.mem_reverse.1 hx)
      have hsize : d.size ≤ w := Nat.size_le.2 (h d List.mem_cons_self)
      rw [if_neg hd, Nat.ofDigits_reverse_cons, ← pow_mul, size_add_two_pow_mul hd hlt]
      omega

theorem le_leadingZeros_iff {ds : List ℕ} (hw : 0 < w) (h : ∀ d ∈ ds, d < 2 ^ w)
    (hk : k ≤ w * ds.length) :
    k ≤ leadingZeros w ds ↔ Nat.ofDigits (2 ^ w) ds.reverse < 2 ^ (w * ds.length - k) := by
  have hall := leadingZeros_add_size hw h
  rw [← Nat.size_le]
  omega

end Suprime
