import Suprime.Octets
import Suprime.PowMod
import Mathlib.Tactic.NormNum.Prime

namespace Suprime
set_option autoImplicit true

/-- `hashlib.sha512` as any function to digests of 64 bytes. -/
structure Sha512 where
  digest : List UInt8 → List UInt8
  length_digest : ∀ m, (digest m).length = 64

namespace Ed25519

/-- `_q` -/
def q : ℕ := 2 ^ 255 - 19

/-- `_l` -/
def l : ℕ := 2 ^ 252 + 27742317777372353535851937790883648493

/-- `_inv` -/
def inv (x : ℤ) : ℤ := powMod x (q - 2) q

/-- `_d` -/
def d : ℤ := -121665 * inv 121666 % q

/-- `_I` -/
def I : ℤ := powMod 2 ((q - 1) / 4) q

/-- `_xrecover` -/
def xrecover (y : ℤ) : ℤ :=
  let xx := (y * y - 1) * inv (d * y * y + 1)
  let x := powMod xx ((q + 3) / 8) q
  let x := if (x * x - xx) % q ≠ 0 then x * I % q else x
  if x % 2 ≠ 0 then q - x else x

/-- `_By` -/
def By : ℤ := 4 * inv 5 % q

/-- `_Bx` -/
def Bx : ℤ := xrecover By

/-- `_B` -/
def B : ℤ × ℤ := (Bx % q, By % q)

/-- `_edwards` -/
def edwards (P Q : ℤ × ℤ) : ℤ × ℤ :=
  let (x1, y1) := P
  let (x2, y2) := Q
  let x3 := (x1 * y2 + x2 * y1) * inv (1 + d * x1 * x2 * y1 * y2)
  let y3 := (y1 * y2 + x1 * x2) * inv (1 - d * x1 * x2 * y1 * y2)
  (x3 % q, y3 % q)

/-- `_scalarmult` -/
def scalarmult (P : ℤ × ℤ) (e : ℕ) : ℤ × ℤ :=
  if e = 0 then (0, 1)
  else
    let Q := scalarmult P (e / 2)
    let Q := edwards Q Q
    if e &&& 1 ≠ 0 then edwards Q P else Q
  termination_by e

/-- `_encodeint` -/
def encodeint (y : ℕ) : List UInt8 := toLE 32 y

/-- `_encodepoint`, of coordinates that are not negative. -/
def encodepoint (P : ℤ × ℤ) : List UInt8 :=
  let (x, y) := P
  let val := y.toNat ||| ((x.toNat &&& 1) <<< 255)
  toLE 32 val

/-- `_bit` -/
def bit (h : List UInt8) (i : ℕ) : ℕ := ((h.getD (i / 8) 0).toNat >>> (i % 8)) &&& 1

/-- The scalar that `_pure_publickey` and `_pure_sign` read from the hashed secret key. -/
def secretScalar (h : List UInt8) : ℕ :=
  (List.range' 3 (254 - 3)).foldl (fun a i => a + 2 ^ i * bit h i) (2 ^ 254)

/-- `_pure_publickey` -/
def purePublickey (H : Sha512) (sk : List UInt8) : List UInt8 :=
  let h := H.digest sk
  let a := secretScalar h
  let A := scalarmult B a
  encodepoint A

/-- `_Hint` -/
def Hint (H : Sha512) (m : List UInt8) : ℕ :=
  let h := H.digest m
  (List.range 512).foldl (fun s i => s + 2 ^ i * bit h i) 0

/-- `_pure_sign` -/
def pureSign (H : Sha512) (sk pk message : List UInt8) : List UInt8 :=
  let h := H.digest sk
  let a := secretScalar h
  let r := Hint H ((h.take 64).drop 32 ++ message)
  let R := scalarmult B r
  let S := (r + Hint H (encodepoint R ++ pk ++ message) * a) % l
  encodepoint R ++ encodeint S

/-- `_decodeint` -/
def decodeint (s : List UInt8) : ℕ := ofLE s

/-- `_isoncurve` -/
def isoncurve (P : ℤ × ℤ) : Bool :=
  let (x, y) := P
  (-x * x + y * y - 1 - d * x * x * y * y) % q == 0

/-- The low 255 bits that `_decodepoint` takes for `y`. -/
def yBits (s : List UInt8) : ℕ := ofLE s &&& ((1 <<< 255) - 1)

/-- `_decodepoint`; a `ValueError` is `none`. -/
def decodepoint (s : List UInt8) : Option (ℤ × ℤ) :=
  let y : ℤ := yBits s
  let x := xrecover y
  let x := if x % 2 ≠ bit s 255 then q - x else x
  if isoncurve (x, y) then some (x, y) else none

/-- `_pure_verify` -/
def pureVerify (H : Sha512) (pk message signature : List UInt8) : Bool :=
  if signature.length ≠ 64 ∨ pk.length ≠ 32 then false
  else
    match decodepoint (signature.take 32), decodepoint pk with
    | some R, some A =>
      let S := decodeint ((signature.take 64).drop 32)
      let h := Hint H (encodepoint R ++ pk ++ message)
      let left := scalarmult B S
      let right := edwards R (scalarmult A h)
      left == right
    | _, _ => false

/-- The largest prime factor of `2 ^ 255 - 20`. -/
def largestFactor : ℕ :=
  74058212732561358302231226437062788676166966415465897661863160754340907

theorem prime_largestFactor : largestFactor.Prime := by
  have h₁ : Nat.Prime 2773320623 := by
    apply prime_of_lucas 5 [2, 2437, 569003] (by norm_num) _ (by decide +kernel)
    norm_num
  have h₂ : Nat.Prime 72106336199 := by
    apply prime_of_lucas 7 [2, 13, 2773320623] (by norm_num) _ (by decide +kernel)
    simp only [List.forall_mem_cons, h₁]
    norm_num
  have h₃ : Nat.Prime 1919519569386763 := by
    apply prime_of_lucas 2 [2, 3, 7, 19, 47, 47, 127, 8574133] (by norm_num) _
      (by decide +kernel)
    norm_num
  have h₄ : Nat.Prime 31757755568855353 := by
    apply prime_of_lucas 10 [2, 2, 2, 3, 31, 107, 223, 4153, 430751] (by norm_num) _
      (by decide +kernel)
    norm_num
  have h₅ : Nat.Prime 75445702479781427272750846543864801 := by
    apply prime_of_lucas 7
      [2, 2, 2, 2, 2, 3, 3, 5, 5, 75707, 72106336199, 1919519569386763] (by norm_num) _
      (by decide +kernel)
    simp only [List.forall_mem_cons, h₂, h₃]
    norm_num
  apply prime_of_lucas 2
    [2, 3, 353, 57467, 132049, 1923133, 31757755568855353,
      75445702479781427272750846543864801] (by norm_num [largestFactor]) _ (by decide +kernel)
  simp only [List.forall_mem_cons, h₄, h₅]
  norm_num

theorem prime_q : q.Prime := by
  apply prime_of_lucas 2 [2, 2, 3, 65147, largestFactor] (by norm_num [q]) _ (by decide +kernel)
  simp only [List.forall_mem_cons, prime_largestFactor]
  norm_num

theorem powers_mod_q : (I ^ 2 + 1) % q = 0 ∧ powMod d (q / 2) q = q - 1 := by decide +kernel

end Ed25519
end Suprime
