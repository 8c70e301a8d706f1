import Suprime.PointCoding

namespace Suprime
set_option autoImplicit true

namespace Ed25519
variable {H : Sha512} {pk message signature : List UInt8}

/-- The equation of a signature, between the points that the bytes encode. -/
def SignatureEquation (H : Sha512) (pk message signature : List UInt8) : Prop :=
  ∃ R A : curve.Point, Encodes (signature.take 32) R ∧ Encodes pk A ∧
    decodeint ((signature.take 64).drop 32) • base =
      R + Hint H (signature.take 32 ++ pk ++ message) • A

theorem scalarmult_B (e : ℕ) : scalarmult B e = reduced (e • base) := scalarmult_eq reads_B e

theorem verifies_iff {P Q : ℤ × ℤ} {R A : curve.Point} (hP : Reads P R) (hQ : Reads Q A)
    (S h : ℕ) : (scalarmult B S == edwards P (scalarmult Q h)) = true ↔
      S • base = R + h • A := by
  rw [beq_iff_eq, scalarmult_B, scalarmult_eq hQ, edwards_eq hP (reads_reduced _)]
  constructor
  · intro heq
    exact reduced_injective heq
  · intro heq
    rw [heq]

theorem length_take_32 (hsig : signature.length = 64) : (signature.take 32).length = 32 := by
  rw [List.length_take, hsig]
  rfl

theorem pureVerify_eq (hpk : pk.length = 32) (hsig : signature.length = 64) {P Q : ℤ × ℤ}
    (hP : decodepoint (signature.take 32) = some P) (hQ : decodepoint pk = some Q) :
    pureVerify H pk message signature =
      (scalarmult B (decodeint ((signature.take 64).drop 32)) ==
        edwards P (scalarmult Q (Hint H (signature.take 32 ++ pk ++ message)))) := by
  have hlen : ¬ (signature.length ≠ 64 ∨ pk.length ≠ 32) := by omega
  rw [pureVerify, if_neg hlen, hP, hQ]
  simp only [encodepoint_of_decodepoint (length_take_32 hsig) hP]

theorem pureVerify_iff (hpk : pk.length = 32) (hsig : signature.length = 64) :
    pureVerify H pk message signature = true ↔ SignatureEquation H pk message signature := by
  constructor
  · intro h
    cases hP : decodepoint (signature.take 32) with
    | none => simp [pureVerify, hP] at h
    | some P =>
      cases hQ : decodepoint pk with
      | none => simp [pureVerify, hP, hQ] at h
      | some Q =>
        obtain ⟨R, hreadR, hR⟩ := encodes_of_decodepoint hP
        obtain ⟨A, hreadA, hA⟩ := encodes_of_decodepoint hQ
        rw [pureVerify_eq hpk hsig hP hQ, verifies_iff hreadR hreadA] at h
        exact ⟨R, A, hR, hA, h⟩
  · intro h
    obtain ⟨R, A, hR, hA, heq⟩ := h
    obtain ⟨P, hP, hreadR⟩ := decodepoint_of_encodes hR
    obtain ⟨Q, hQ, hreadA⟩ := decodepoint_of_encodes hA
    rw [pureVerify_eq hpk hsig hP hQ, verifies_iff hreadR hreadA]
    exact heq

theorem smul_mod_l (n : ℕ) : (n % l) • base = n • base := by
  have hsplit := congrArg (· • base) (Nat.div_add_mod n l)
  simp only [add_smul, mul_smul, mul_comm l] at hsplit
  rw [l_smul_base, smul_zero, zero_add] at hsplit
  exact hsplit

theorem decodeint_encodeint {n : ℕ} (hn : n < 2 ^ 256) : decodeint (encodeint n) = n :=
  ofLE_toLE_of_lt hn

theorem take_signature {s t : List UInt8} (hs : s.length = 32) : (s ++ t).take 32 = s := by
  rw [← hs, List.take_left]

theorem length_signature {s t : List UInt8} (hs : s.length = 32) (ht : t.length = 32) :
    (s ++ t).length = 64 := by
  rw [List.length_append, hs, ht]

theorem drop_signature {s t : List UInt8} (hs : s.length = 32) (ht : t.length = 32) :
    ((s ++ t).take 64).drop 32 = t := by
  rw [← length_signature hs ht, List.take_length, ← hs, List.drop_left]

theorem length_encodeint (n : ℕ) : (encodeint n).length = 32 := length_toLE _ _

/-- Every signature of `_pure_sign` passes `_pure_verify` under the public key of the signer. -/
theorem pureVerify_pureSign (H : Sha512) (sk message : List UInt8) :
    pureVerify H (purePublickey H sk) message (pureSign H sk (purePublickey H sk) message) =
      true := by
  have hlt : ∀ n, n % l < 2 ^ 256 := fun n =>
    lt_trans (Nat.mod_lt n (by norm_num [l])) (by norm_num [l])
  have hsig : (pureSign H sk (purePublickey H sk) message).length = 64 := by
    simp only [pureSign, List.length_append, length_encodepoint, length_encodeint]
  have hpk : (purePublickey H sk).length = 32 := length_encodepoint _
  rw [pureVerify_iff hpk hsig]
  have hA := encodes_encodepoint (secretScalar (H.digest sk) • base)
  have hR := encodes_encodepoint (Hint H (((H.digest sk).take 64).drop 32 ++ message) • base)
  rw [← scalarmult_B] at hA hR
  refine ⟨Hint H (((H.digest sk).take 64).drop 32 ++ message) • base, _, ?_, hA, ?_⟩
  · simp only [pureSign, take_signature (length_encodepoint _)]
    exact hR
  · simp only [pureSign, take_signature (length_encodepoint _),
      drop_signature (length_encodepoint _) (length_encodeint _), decodeint_encodeint (hlt _),
      smul_mod_l, add_smul, mul_smul]

def Canonical (s : List UInt8) : Prop :=
  yBits s < q ∧ (xrecover (yBits s) = 0 → bit s 255 = 0)

/-- The scalar is below the order, and the key and the point are canonical. -/
def Strict (pk signature : List UInt8) : Prop :=
  decodeint ((signature.take 64).drop 32) < l ∧ Canonical pk ∧ Canonical (signature.take 32)

theorem accepts_reencoded {R : List UInt8} {S : ℕ} (hpk : pk.length = 32) (hR : R.length = 32)
    (hS : S + l < 2 ^ 256) (h : pureVerify H pk message (R ++ encodeint S) = true) :
    pureVerify H pk message (R ++ encodeint (S + l)) = true := by
  rw [pureVerify_iff hpk (length_signature hR (length_encodeint _)), SignatureEquation] at h ⊢
  rw [take_signature hR, drop_signature hR (length_encodeint _)] at h ⊢
  rw [decodeint_encodeint (Nat.lt_of_le_of_lt (Nat.le_add_right S l) hS)] at h
  rw [decodeint_encodeint hS, add_smul, l_smul_base, add_zero]
  exact h

def neutral : List UInt8 := 1 :: List.replicate 31 0

theorem encodes_neutral : Encodes neutral 0 := by
  refine ⟨?_, ?_⟩
  · have hy : yBits neutral = 1 := by decide
    rw [hy, Nat.cast_one]
    rfl
  · left
    rfl

theorem accepts_neutral (H : Sha512) (message : List UInt8) {S : ℕ} (hS : S < 2 ^ 256)
    (h0 : S • base = 0) : pureVerify H neutral message (neutral ++ encodeint S) = true := by
  rw [pureVerify_iff rfl (length_signature rfl (length_encodeint S))]
  refine ⟨0, 0, ?_, encodes_neutral, ?_⟩
  · rw [take_signature rfl]
    exact encodes_neutral
  · rw [drop_signature rfl (length_encodeint _), decodeint_encodeint hS, h0, smul_zero, zero_add]

def constantHash : Sha512 := ⟨fun _ => List.replicate 64 0, fun _ => rfl⟩

/-- Acceptance implies strictness exactly for strict inputs and for those that break the
equation of a signature. -/
theorem strict_of_accepted_iff (hpk : pk.length = 32) (hsig : signature.length = 64) :
    (pureVerify H pk message signature = true → Strict pk signature) ↔
      (Strict pk signature ∨ ¬ SignatureEquation H pk message signature) := by
  rw [pureVerify_iff hpk hsig]
  constructor
  · intro h
    by_cases heq : SignatureEquation H pk message signature
    · left
      exact h heq
    · right
      exact heq
  · intro h heq
    obtain h | h := h
    · exact h
    · exact absurd heq h

theorem strict_of_accepted_iff_neutral :
    (pureVerify constantHash neutral [] (neutral ++ encodeint l) = true →
        Strict neutral (neutral ++ encodeint l)) ↔
      (Strict neutral (neutral ++ encodeint l) ∨
        ¬ SignatureEquation constantHash neutral [] (neutral ++ encodeint l)) :=
  strict_of_accepted_iff rfl (length_signature rfl (length_encodeint l))

/-- Under the neutral key the scalars `0` and `_l` are both accepted, whatever the hash. -/
theorem order_accepted_as_scalar :
    (∀ H, pureVerify H neutral [] (neutral ++ encodeint 0) = true) ∧
      (∀ H, pureVerify H neutral [] (neutral ++ encodeint l) = true) ∧
      ¬ Strict neutral (neutral ++ encodeint l) := by
  refine ⟨?_, ?_, ?_⟩
  · intro H
    exact accepts_neutral H [] (by norm_num) (zero_smul ℕ base)
  · intro H
    exact accepts_neutral H [] (by norm_num [l]) l_smul_base
  · intro h
    have hlt := h.1
    rw [drop_signature rfl (length_encodeint _), decodeint_encodeint (by norm_num [l])] at hlt
    exact lt_irrefl l hlt

end Ed25519
end Suprime
