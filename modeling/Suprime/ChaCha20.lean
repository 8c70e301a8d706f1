import Suprime.Octets

namespace Suprime
set_option autoImplicit true

namespace ChaCha20

def rotl32 (v : UInt32) (c : UInt32) : UInt32 := (v <<< c) ||| (v >>> (32 - c))

def quarterRound (x : List UInt32) (a b c d : ℕ) : List UInt32 :=
  let x := x.set a (x.getD a 0 + x.getD b 0)
  let x := x.set d (rotl32 (x.getD d 0 ^^^ x.getD a 0) 16)
  let x := x.set c (x.getD c 0 + x.getD d 0)
  let x := x.set b (rotl32 (x.getD b 0 ^^^ x.getD c 0) 12)
  let x := x.set a (x.getD a 0 + x.getD b 0)
  let x := x.set d (rotl32 (x.getD d 0 ^^^ x.getD a 0) 8)
  let x := x.set c (x.getD c 0 + x.getD d 0)
  x.set b (rotl32 (x.getD b 0 ^^^ x.getD c 0) 7)

def doubleRound (x : List UInt32) : List UInt32 :=
  let x := quarterRound x 0 4 8 12
  let x := quarterRound x 1 5 9 13
  let x := quarterRound x 2 6 10 14
  let x := quarterRound x 3 7 11 15
  let x := quarterRound x 0 5 10 15
  let x := quarterRound x 1 6 11 12
  let x := quarterRound x 2 7 8 13
  quarterRound x 3 4 9 14

/-- `struct.unpack("<nI", b)` -/
def unpackWords (n : ℕ) (b : List UInt8) : List UInt32 :=
  (List.range n).map (fun i => UInt32.ofNat (ofLE ((b.drop (4 * i)).take 4)))

def packWords (x : List UInt32) : List UInt8 := x.flatMap (fun w => toLE 4 w.toNat)

def constants : List UInt32 := [0x61707865, 0x3320646E, 0x79622D32, 0x6B206574]

/-- `_chacha20_block` for a key of 32 bytes and a nonce of 12 bytes. -/
def block (key : List UInt8) (counter : ℕ) (nonce : List UInt8) : List UInt8 :=
  let state := constants ++ unpackWords 8 key ++ [UInt32.ofNat counter] ++ unpackWords 3 nonce
  let working := doubleRound^[10] state
  packWords (List.zipWith (· + ·) working state)

/-- The data, xored with one block of the key stream for each 64 bytes. -/
def xorStream (key nonce data : List UInt8) (counter : ℕ) : List UInt8 :=
  (List.range ((data.length + 63) / 64)).flatMap (fun i =>
    List.zipWith (· ^^^ ·) ((data.drop (64 * i)).take 64) (block key (counter + i) nonce))

end ChaCha20

/-- `chacha20` with the default counter; `none` stands for `ValueError`. -/
def chacha20 (key nonce data : List UInt8) : Option (List UInt8) :=
  if key.length ≠ 32 then none
  else if nonce.length ≠ 12 then none
  else some (ChaCha20.xorStream key nonce data 0)

theorem isSome_chacha20_iff (key nonce data : List UInt8) :
    (chacha20 key nonce data).isSome = true ↔ key.length = 32 ∧ nonce.length = 12 := by
  rw [chacha20]
  by_cases hk : key.length = 32
  · by_cases hn : nonce.length = 12
    · rw [if_neg (not_not.2 hk), if_neg (not_not.2 hn)]
      exact iff_of_true rfl ⟨hk, hn⟩
    · rw [if_neg (not_not.2 hk), if_pos hn]
      exact iff_of_false Bool.false_ne_true (fun h => hn h.2)
  · rw [if_pos hk]
    exact iff_of_false Bool.false_ne_true (fun h => hk h.1)

/-- The key stream of RFC 8439 in its test of the block function. -/
example : (ChaCha20.block ((List.range 32).map UInt8.ofNat) 1
    [0, 0, 0, 9, 0, 0, 0, 0x4a, 0, 0, 0, 0]).take 8 =
    [0x10, 0xf1, 0xe7, 0xe4, 0xd1, 0x3b, 0x59, 0x15] := by
  decide +kernel

end Suprime
