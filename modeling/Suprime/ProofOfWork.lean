import Mathlib.Order.Bounds.Basic
import Suprime.Fingerprints
import Suprime.LeadingZeros

namespace Suprime
set_option autoImplicit true

def isLowerHex (c : Char) : Bool := c.isDigit || (97 ≤ c.toNat && c.toNat ≤ 102)

/-- What `hexdigest` of a hash of 256 bits returns. -/
structure HexDigest where
  text : Text
  length_eq : text.length = 64
  lower : ∀ c ∈ text, isLowerHex c = true

/-- A node identity backed by a proof of work. -/
structure Identity where
  nodeId : PyStr
  nonce : ℤ
  difficulty : ℤ
  deriving DecidableEq

/-- The exceptions of `mint_identity` and `verify_identity`. -/
inductive PowError
  | runtimeError (text : String)
  | unicodeEncodeError
  | valueError
  deriving DecidableEq

/-- `str(i)` of an int. More than 4300 digits are refused. -/
def strInt (i : ℤ) : Except PowError PyStr :=
  if (Nat.toDigits 10 i.natAbs).length ≤ 4300 then .ok (pyStr (dumpsInt i))
  else .error .valueError

/-- `_leading_zero_bits` from some place of the digest on. -/
def zeroBitsFrom (bits : ℕ) : Text → Except PowError ℕ
  | [] => .ok bits
  | ch :: rest =>
    match hexVal ch with
    | none => .error .valueError
    | some nibble =>
      if nibble = 0 then zeroBitsFrom (bits + 4) rest else .ok (bits + (4 - nibble.size))

def leadingZeroBits (hexDigest : HexDigest) : Except PowError ℕ := zeroBitsFrom 0 hexDigest.text

section
variable (hash : Bytes → HexDigest)

def powHash (nodeId : PyStr) (nonce : ℤ) : Except PowError HexDigest := do
  let digits ← strInt nonce
  match encode (nodeId ++ pyStr [':'] ++ digits) with
  | none => .error .unicodeEncodeError
  | some b => .ok (hash b)

/-- The loop of `mint_identity` from some nonce on. -/
def mintFrom (nodeId : PyStr) (difficulty maxIters : ℤ) (nonce : ℕ) : Except PowError Identity :=
  if maxIters < nonce then .error (.runtimeError "proof-of-work budget exhausted")
  else do
    let digest ← powHash hash nodeId nonce
    let bits ← leadingZeroBits digest
    if difficulty ≤ bits then .ok ⟨nodeId, nonce, difficulty⟩
    else mintFrom nodeId difficulty maxIters (nonce + 1)
termination_by (maxIters + 1 - nonce).toNat
decreasing_by omega

def mintIdentity (nodeId : PyStr) (difficulty : ℤ := 12) (maxIters : ℤ := 5000000) :
    Except PowError Identity :=
  mintFrom hash nodeId difficulty maxIters 0

def verifyIdentity (identity : Identity) (minDifficulty : ℤ := 12) : Except PowError Bool :=
  if identity.difficulty < minDifficulty then .ok false
  else do
    let digest ← powHash hash identity.nodeId identity.nonce
    let bits ← leadingZeroBits digest
    .ok (decide (identity.difficulty ≤ bits))

/-- The hash with this nonce has enough leading zero bits. -/
def Qualifies (nodeId : PyStr) (difficulty nonce : ℤ) : Prop :=
  ∃ digest bits, powHash hash nodeId nonce = .ok digest ∧ leadingZeroBits digest = .ok bits ∧
    difficulty ≤ bits

end

namespace HexDigest

def value (h : HexDigest) : ℕ := hexNat h.text

def nibbles (h : HexDigest) : List ℕ := h.text.map (fun c => (hexVal c).getD 0)

end HexDigest

theorem hexVal_of_isLowerHex {c : Char} (h : isLowerHex c = true) :
    ∃ d < 16, hexVal c = some d := by
  unfold hexVal
  rw [isLowerHex, Bool.or_eq_true, Bool.and_eq_true, decide_eq_true_eq, decide_eq_true_eq] at h
  by_cases hdigit : c.isDigit = true
  · have hle : 48 ≤ c.toNat ∧ c.toNat ≤ 57 := Char.isDigit_iff_toNat.1 hdigit
    exact ⟨c.toNat - 48, by omega, if_pos hdigit⟩
  · have hletter := h.resolve_left hdigit
    refine ⟨c.toNat - 87, by omega, ?_⟩
    rw [if_neg hdigit, if_pos hletter]

theorem zeroBitsFrom_eq {t : Text} (h : ∀ c ∈ t, isLowerHex c = true) (bits : ℕ) :
    zeroBitsFrom bits t =
      .ok (bits + leadingZeros 4 (t.map (fun c => (hexVal c).getD 0))) := by
  induction t generalizing bits with
  | nil => rfl
  | cons c t ih =>
    obtain ⟨d, -, hd⟩ := hexVal_of_isLowerHex (h c List.mem_cons_self)
    have hrest : ∀ x ∈ t, isLowerHex x = true := fun x hx => h x (List.mem_cons_of_mem _ hx)
    simp only [zeroBitsFrom, hd, List.map_cons, Option.getD_some, leadingZeros]
    by_cases hzero : d = 0
    · rw [if_pos hzero, if_pos hzero, ih hrest, Nat.add_assoc]
    · rw [if_neg hzero, if_neg hzero]

namespace HexDigest

theorem length_nibbles (h : HexDigest) : h.nibbles.length = 64 := by
  rw [nibbles, List.length_map, h.length_eq]

theorem nibbles_lt (h : HexDigest) : ∀ d ∈ h.nibbles, d < 2 ^ 4 := by
  intro d hd
  obtain ⟨c, hc, rfl⟩ := List.mem_map.1 hd
  obtain ⟨d, hlt, hval⟩ := hexVal_of_isLowerHex (h.lower c hc)
  rw [hval, Option.getD_some]
  exact hlt

theorem value_eq (h : HexDigest) : h.value = Nat.ofDigits (2 ^ 4) h.nibbles.reverse := by
  rw [← foldl_digits, nibbles, List.foldl_map]
  rfl

end HexDigest

theorem isLowerHex_digitChar : ∀ d < 16, isLowerHex (Nat.digitChar d) = true := by
  decide

theorem isLowerHex_hexByte (h : c ∈ hexByte x) : isLowerHex c = true := by
  obtain ⟨d, hd, rfl⟩ := mem_hexByte h
  exact isLowerHex_digitChar d hd

theorem length_flatMap_hexByte (b : Bytes) : (b.flatMap hexByte).length = 2 * b.length := by
  induction b with
  | nil => rfl
  | cons x b ih =>
    have hx : (hexByte x).length = 2 := rfl
    rw [List.flatMap_cons, List.length_append, ih, hx, List.length_cons]
    omega

namespace HexDigest

def ofBytes (b : Bytes) (h : b.length = 32) : HexDigest where
  text := b.flatMap hexByte
  length_eq := by rw [length_flatMap_hexByte, h]
  lower := by
    intro c hc
    obtain ⟨x, -, hx⟩ := List.mem_flatMap.1 hc
    exact isLowerHex_hexByte hx

end HexDigest

/-- The count never fails, and it bounds the integer of the digest. -/
theorem leadingZeroBits_spec (h : HexDigest) : ∃ bits, leadingZeroBits h = .ok bits ∧
    ∀ d ≤ 256, (d ≤ bits ↔ h.value < 2 ^ (256 - d)) := by
  refine ⟨leadingZeros 4 h.nibbles, ?_, ?_⟩
  · rw [leadingZeroBits, zeroBitsFrom_eq h.lower, Nat.zero_add]
    rfl
  · intro d hd
    have hlen : 4 * h.nibbles.length = 256 := by rw [h.length_nibbles]
    have hiff := le_leadingZeros_iff (by omega) h.nibbles_lt (hlen ▸ hd)
    rwa [hlen, ← h.value_eq] at hiff

section
variable {hash : Bytes → HexDigest}

/-- A nonce has a hash when the text of the node can be encoded and the number is not too long. -/
theorem powHash_ok_iff {nodeId : PyStr} {nonce : ℤ} :
    (∃ digest, powHash hash nodeId nonce = .ok digest) ↔
      PlainText nodeId ∧ (Nat.toDigits 10 nonce.natAbs).length ≤ 4300 := by
  rw [powHash, strInt]
  by_cases hlen : (Nat.toDigits 10 nonce.natAbs).length ≤ 4300
  · rw [if_pos hlen]
    constructor
    · rintro ⟨digest, h⟩
      refine ⟨?_, hlen⟩
      cases hb : encode (nodeId ++ pyStr [':'] ++ pyStr (dumpsInt nonce)) with
      | none =>
        simp only [bind, Except.bind, hb] at h
        cases h
      | some b =>
        intro c hc
        apply plainText_of_encode hb c
        exact List.mem_append_left _ (List.mem_append_left _ hc)
    · rintro ⟨hplain, -⟩
      have hall := (hplain.append (plainText_pyStr [':'])).append
        (plainText_pyStr (dumpsInt nonce))
      obtain ⟨b, hb⟩ := hall.encode
      refine ⟨hash b, ?_⟩
      simp only [bind, Except.bind, hb]
  · rw [if_neg hlen]
    apply iff_of_false
    · rintro ⟨digest, h⟩
      cases h
    · exact fun h => hlen h.2

theorem powHash_of_le {m n : ℕ} (h : powHash hash nodeId m = .ok digest) (hle : n ≤ m) :
    ∃ digest, powHash hash nodeId n = .ok digest := by
  obtain ⟨hplain, hlen⟩ := powHash_ok_iff.1 ⟨digest, h⟩
  refine powHash_ok_iff.2 ⟨hplain, ?_⟩
  rw [Int.natAbs_natCast] at hlen ⊢
  rw [Nat.length_toDigits_le_iff (by omega) (by omega)] at hlen ⊢
  exact hle.trans_lt hlen

theorem qualifies_iff (hd : powHash hash nodeId nonce = .ok digest)
    (hb : leadingZeroBits digest = .ok bits) :
    Qualifies hash nodeId difficulty nonce ↔ difficulty ≤ bits := by
  constructor
  · rintro ⟨digest', bits', hd', hb', hle⟩
    rw [hd, Except.ok.injEq] at hd'
    rw [← hd', hb, Except.ok.injEq] at hb'
    rwa [hb']
  · exact fun hle => ⟨digest, bits, hd, hb, hle⟩

theorem mintFrom_cases (hash : Bytes → HexDigest) (nodeId : PyStr) (difficulty maxIters : ℤ)
    (nonce : ℕ) :
    (maxIters < nonce ∧ mintFrom hash nodeId difficulty maxIters nonce =
        .error (.runtimeError "proof-of-work budget exhausted")) ∨
    (nonce ≤ maxIters ∧ ∃ e, powHash hash nodeId nonce = .error e ∧
      mintFrom hash nodeId difficulty maxIters nonce = .error e) ∨
    (nonce ≤ maxIters ∧ Qualifies hash nodeId difficulty nonce ∧
      mintFrom hash nodeId difficulty maxIters nonce = .ok ⟨nodeId, nonce, difficulty⟩) ∨
    (nonce ≤ maxIters ∧ ¬ Qualifies hash nodeId difficulty nonce ∧
      mintFrom hash nodeId difficulty maxIters nonce =
        mintFrom hash nodeId difficulty maxIters (nonce + 1)) := by
  rw [mintFrom]
  by_cases hbudget : maxIters < nonce
  · exact Or.inl ⟨hbudget, if_pos hbudget⟩
  · rw [if_neg hbudget]
    right
    cases hd : powHash hash nodeId nonce with
    | error e => exact Or.inl ⟨not_lt.1 hbudget, e, rfl, rfl⟩
    | ok digest =>
      obtain ⟨bits, hb, -⟩ := leadingZeroBits_spec digest
      have hiff : Qualifies hash nodeId difficulty nonce ↔ difficulty ≤ bits := qualifies_iff hd hb
      simp only [bind, Except.bind, hb]
      by_cases hle : difficulty ≤ bits
      · exact Or.inr (Or.inl ⟨not_lt.1 hbudget, hiff.2 hle, if_pos hle⟩)
      · exact Or.inr (Or.inr ⟨not_lt.1 hbudget, fun h => hle (hiff.1 h), if_neg hle⟩)

/-- A search finds the first nonce that qualifies, or it passes over all that the budget has. -/
theorem mintFrom_run (hash : Bytes → HexDigest) (nodeId : PyStr) (difficulty maxIters : ℤ)
    (start : ℕ) :
    (∃ n : ℕ, mintFrom hash nodeId difficulty maxIters start = .ok ⟨nodeId, n, difficulty⟩ ∧
      n ≤ maxIters ∧ Qualifies hash nodeId difficulty n ∧
      ∀ m : ℕ, start ≤ m → m < n → ¬ Qualifies hash nodeId difficulty m) ∨
    (∃ e, mintFrom hash nodeId difficulty maxIters start = .error e ∧
      (e = .runtimeError "proof-of-work budget exhausted" ∨
        ∃ m : ℕ, m ≤ maxIters ∧ powHash hash nodeId m = .error e) ∧
      ∀ m : ℕ, start ≤ m → m ≤ maxIters → ¬ Qualifies hash nodeId difficulty m) := by
  -- The induction is on the rounds that the budget leaves.
  induction hk : (maxIters + 1 - start).toNat using Nat.strong_induction_on generalizing start with
  | h k ih =>
    rcases mintFrom_cases hash nodeId difficulty maxIters start with
      ⟨hlt, heq⟩ | ⟨hle, e, he, heq⟩ | ⟨hle, hq, heq⟩ | ⟨hle, hq, heq⟩
    · exact Or.inr ⟨_, heq, Or.inl rfl, fun m hm hle => by omega⟩
    · refine Or.inr ⟨e, heq, Or.inr ⟨start, hle, he⟩, ?_⟩
      -- No later nonce has a hash either.
      rintro m hm - ⟨digest, bits, hd, -⟩
      obtain ⟨digest', hd'⟩ := powHash_of_le hd hm
      rw [he] at hd'
      cases hd'
    · exact Or.inl ⟨start, heq, hle, hq, fun m hm hlt => absurd hlt (not_lt.2 hm)⟩
    · have hfirst : ∀ {p : ℕ → Prop}, (∀ m, start + 1 ≤ m → p m → ¬ Qualifies hash nodeId
          difficulty m) → ∀ m, start ≤ m → p m → ¬ Qualifies hash nodeId difficulty m := by
        intro p hrest m hm hp
        rcases Nat.eq_or_lt_of_le hm with rfl | hm
        · exact hq
        · exact hrest m hm hp
      rw [heq]
      rcases ih _ (by omega) (start + 1) rfl with ⟨n, hn, hbudget, hqn, hleast⟩ |
        ⟨e, he, hcause, hnone⟩
      · exact Or.inl ⟨n, hn, hbudget, hqn, hfirst hleast⟩
      · exact Or.inr ⟨e, he, hcause, hfirst hnone⟩

theorem verifyIdentity_of_qualifies (h : Qualifies hash nodeId difficulty nonce)
    (hle : minDifficulty ≤ difficulty) :
    verifyIdentity hash ⟨nodeId, nonce, difficulty⟩ minDifficulty = .ok true := by
  obtain ⟨digest, bits, hd, hb, hbits⟩ := h
  rw [verifyIdentity, if_neg (not_lt.2 hle)]
  simp only [bind, Except.bind, hd, hb, decide_eq_true hbits]

/-- The search returns the least nonce that qualifies, which the check accepts, and it raises
an exception when the budget has no such nonce. -/
theorem proof_of_work_exact (hash : Bytes → HexDigest) (nodeId : PyStr)
    (difficulty maxIters : ℤ) :
    (∀ h : HexDigest, ∃ bits : ℕ, leadingZeroBits h = .ok bits ∧
      ∀ d ≤ 256, (d ≤ bits ↔ h.value < 2 ^ (256 - d))) ∧
    (∀ identity, mintIdentity hash nodeId difficulty maxIters = .ok identity →
      ∃ n : ℕ, identity = ⟨nodeId, n, difficulty⟩ ∧
        IsLeast {m : ℕ | Qualifies hash nodeId difficulty m} n ∧ n ≤ maxIters ∧
        ∀ m ≤ difficulty, verifyIdentity hash identity m = .ok true) ∧
    ((∃ e, mintIdentity hash nodeId difficulty maxIters = .error e) ↔
      ∀ n : ℕ, n ≤ maxIters → ¬ Qualifies hash nodeId difficulty n) := by
  refine ⟨leadingZeroBits_spec, ?_⟩
  simp only [mintIdentity]
  rcases mintFrom_run hash nodeId difficulty maxIters 0 with
    ⟨n, heq, hbudget, hq, hleast⟩ | ⟨e, heq, -, hnone⟩
  · constructor
    · intro identity h
      rw [heq, Except.ok.injEq] at h
      obtain rfl := h
      refine ⟨n, rfl, ⟨hq, ?_⟩, hbudget, fun m hm => verifyIdentity_of_qualifies hq hm⟩
      intro m hm
      by_contra hlt
      exact hleast m (Nat.zero_le m) (not_le.1 hlt) hm
    · apply iff_of_false
      · rintro ⟨e, h⟩
        rw [heq] at h
        cases h
      · exact fun hnone => hnone n hbudget hq
  · constructor
    · intro identity h
      rw [heq] at h
      cases h
    · exact iff_of_true ⟨e, heq⟩ (fun m => hnone m (Nat.zero_le m))

/-- With a name that can be encoded, `mint_identity` raises the documented exception only. -/
theorem mintIdentity_eq_error_iff (hplain : PlainText nodeId)
    (hlen : (Nat.toDigits 10 maxIters.toNat).length ≤ 4300) :
    mintIdentity hash nodeId difficulty maxIters = .error e ↔
      e = .runtimeError "proof-of-work budget exhausted" ∧
        ∀ n : ℕ, n ≤ maxIters → ¬ Qualifies hash nodeId difficulty n := by
  rw [mintIdentity]
  rcases mintFrom_run hash nodeId difficulty maxIters 0 with
    ⟨n, heq, hbudget, hq, -⟩ | ⟨e', heq, hcause, hnone⟩
  · rw [heq]
    apply iff_of_false
    · intro h
      cases h
    · exact fun h => h.2 n hbudget hq
  · have hraised : e' = .runtimeError "proof-of-work budget exhausted" := by
      rcases hcause with h | ⟨m, hle, he⟩
      · exact h
      · obtain ⟨digest, hd⟩ : ∃ digest, powHash hash nodeId m = .ok digest := by
          rw [powHash_ok_iff, Int.natAbs_natCast]
          refine ⟨hplain, ?_⟩
          rw [Nat.length_toDigits_le_iff (by omega) (by omega)] at hlen ⊢
          omega
        rw [hd] at he
        cases he
    rw [heq, Except.error.injEq, hraised, eq_comm]
    exact (and_iff_left (fun m => hnone m (Nat.zero_le m))).symm

end

/-- The SHA-256 of `x:0`, and that of `x:1` for every other text. -/
def twoNonces (b : Bytes) : HexDigest :=
  if b = [120, 58, 48] then
    .ofBytes [0xbb, 0x9a, 0x93, 0xe2, 0x15, 0x7a, 0x14, 0x67, 0x89, 0x2c, 0x8f,
      0xac, 0x6f, 0x6e, 0xed, 0xd0, 0xd7, 0x79, 0x15, 0xc9, 0xfe, 0xdb, 0xb8, 0xf1,
      0xcc, 0x60, 0x5a, 0x42, 0x3f, 0xdd, 0x3c, 0x60] rfl
  else
    .ofBytes [0x0b, 0x78, 0x80, 0x78, 0x93, 0x7c, 0x4c, 0x6e, 0xd6, 0xf9, 0x8b,
      0x64, 0x1b, 0x7a, 0x91, 0x29, 0xce, 0x9d, 0x6c, 0xc9, 0x93, 0xf1, 0x00, 0x0b,
      0xb8, 0x02, 0x4e, 0x7a, 0xdb, 0x48, 0xc2, 0x80] rfl

theorem proof_of_work_exact_of_twoNonces :
    mintIdentity twoNonces (pyStr ['x']) 4 = .ok ⟨pyStr ['x'], 1, 4⟩ ∧
      verifyIdentity twoNonces ⟨pyStr ['x'], 1, 4⟩ 3 = .ok true := by
  obtain ⟨-, hok, herr⟩ := proof_of_work_exact twoNonces (pyStr ['x']) 4 5000000
  have hzero : ¬ Qualifies twoNonces (pyStr ['x']) 4 0 := by
    have hdigest : powHash twoNonces (pyStr ['x']) 0 = .ok (twoNonces [120, 58, 48]) := rfl
    have hbits : leadingZeroBits (twoNonces [120, 58, 48]) = .ok 0 := rfl
    rw [qualifies_iff hdigest hbits]
    decide
  have hone : Qualifies twoNonces (pyStr ['x']) 4 1 :=
    ⟨twoNonces [120, 58, 49], 4, rfl, rfl, le_rfl⟩
  cases h : mintIdentity twoNonces (pyStr ['x']) 4 with
  | error e => exact absurd hone (herr.1 ⟨e, h⟩ 1 (by decide))
  | ok identity =>
    obtain ⟨n, rfl, ⟨hn, hleast⟩, -, hverify⟩ := hok identity h
    have hle : n ≤ 1 := hleast hone
    obtain rfl : n = 1 := by
      apply le_antisymm hle
      apply Nat.one_le_iff_ne_zero.2
      rintro rfl
      exact hzero hn
    exact ⟨rfl, hverify 3 (by decide)⟩

end Suprime
