import Suprime.AuthRoundTrip
import Suprime.EncryptedTransport

namespace Suprime
set_option autoImplicit true

/-- The data, xored with one block for each 64 bytes. -/
def xorBlocks (blocks : ℕ → List UInt8) (data : List UInt8) : List UInt8 :=
  (List.range ((data.length + 63) / 64)).flatMap (fun i =>
    List.zipWith (· ^^^ ·) ((data.drop (64 * i)).take 64) (blocks i))

@[simp] theorem xorBlocks_nil (blocks : ℕ → List UInt8) : xorBlocks blocks [] = [] := rfl

theorem xorBlocks_step (blocks : ℕ → List UInt8) {data : List UInt8} (h : data ≠ []) :
    xorBlocks blocks data = List.zipWith (· ^^^ ·) (data.take 64) (blocks 0) ++
      xorBlocks (fun i => blocks (i + 1)) (data.drop 64) := by
  have hpos := List.length_pos_of_ne_nil h
  have hcount : (data.length + 63) / 64 = (data.length - 64 + 63) / 64 + 1 := by omega
  rw [xorBlocks, xorBlocks, hcount, List.range_succ_eq_map, List.flatMap_cons, List.flatMap_map,
    List.length_drop, Nat.mul_zero, List.drop_zero]
  congr 2
  funext i
  rw [List.drop_drop, Nat.mul_succ, Nat.add_comm]

theorem chunk_induction {P : List UInt8 → Prop} (nil : P [])
    (step : ∀ data, data ≠ [] → P (data.drop 64) → P data) (data : List UInt8) : P data := by
  induction hn : data.length using Nat.strong_induction_on generalizing data with
  | _ n ih =>
    by_cases hnil : data = []
    · rw [hnil]
      exact nil
    · have hpos := List.length_pos_of_ne_nil hnil
      apply step data hnil
      apply ih (data.drop 64).length _ _ rfl
      rw [List.length_drop]
      omega

theorem length_xorBlocks {blocks : ℕ → List UInt8} (hb : ∀ i, (blocks i).length = 64)
    (data : List UInt8) : (xorBlocks blocks data).length = data.length := by
  induction data using chunk_induction generalizing blocks with
  | nil => rfl
  | step data hne ih =>
    rw [xorBlocks_step blocks hne, List.length_append, ih (fun i => hb (i + 1)),
      List.length_zipWith, hb 0, List.length_take, List.length_drop]
    omega

theorem zipWith_xor_cancel {s t : List UInt8} (h : s.length ≤ t.length) :
    List.zipWith (· ^^^ ·) (List.zipWith (· ^^^ ·) s t) t = s := by
  induction s generalizing t with
  | nil => rfl
  | cons a s ih =>
    cases t with
    | nil => cases h
    | cons b t =>
      rw [List.zipWith_cons_cons, List.zipWith_cons_cons, ih (Nat.le_of_succ_le_succ h)]
      have hself : a ^^^ b ^^^ b = a := by
        rw [UInt8.xor_assoc, UInt8.xor_self, UInt8.xor_zero]
      rw [hself]

theorem xorBlocks_xorBlocks {blocks : ℕ → List UInt8} (hb : ∀ i, (blocks i).length = 64)
    (data : List UInt8) : xorBlocks blocks (xorBlocks blocks data) = data := by
  induction data using chunk_induction generalizing blocks with
  | nil => rw [xorBlocks_nil, xorBlocks_nil]
  | step data hne ih =>
    have hlen := length_xorBlocks hb data
    have hout : xorBlocks blocks data ≠ [] := by
      intro he
      rw [he] at hlen
      exact hne (List.eq_nil_of_length_eq_zero hlen.symm)
    have hhead : (List.zipWith (· ^^^ ·) (data.take 64) (blocks 0)).length =
        min 64 data.length := by
      rw [List.length_zipWith, hb 0, List.length_take]
      omega
    have hcut : (xorBlocks blocks data).take 64 =
        List.zipWith (· ^^^ ·) (data.take 64) (blocks 0) ∧
        (xorBlocks blocks data).drop 64 = xorBlocks (fun i => blocks (i + 1)) (data.drop 64) := by
      rw [xorBlocks_step blocks hne]
      by_cases hlong : 64 ≤ data.length
      · rw [min_eq_left hlong] at hhead
        exact ⟨List.take_left' hhead, List.drop_left' hhead⟩
      · have hrest : data.drop 64 = [] := List.drop_eq_nil_of_le (by omega)
        rw [hrest, xorBlocks_nil, List.append_nil]
        exact ⟨List.take_of_length_le (by omega), List.drop_eq_nil_of_le (by omega)⟩
    have hcancel : List.zipWith (· ^^^ ·) (List.zipWith (· ^^^ ·) (data.take 64) (blocks 0))
        (blocks 0) = data.take 64 := by
      apply zipWith_xor_cancel
      rw [hb 0, List.length_take]
      omega
    rw [xorBlocks_step blocks hout, hcut.1, hcut.2, hcancel, ih (fun i => hb (i + 1)),
      List.take_append_drop]

namespace ChaCha20

theorem length_quarterRound (x : List UInt32) (a b c d : ℕ) :
    (quarterRound x a b c d).length = x.length := by
  simp only [quarterRound, List.length_set]

theorem length_doubleRound (x : List UInt32) : (doubleRound x).length = x.length := by
  simp only [doubleRound, length_quarterRound]

theorem length_rounds (n : ℕ) (x : List UInt32) : (doubleRound^[n] x).length = x.length := by
  induction n generalizing x with
  | zero => rfl
  | succ n ih => rw [Function.iterate_succ_apply, ih, length_doubleRound]

theorem length_packWords (x : List UInt32) : (packWords x).length = 4 * x.length := by
  induction x with
  | nil => rfl
  | cons w x ih =>
    rw [packWords] at ih
    rw [packWords, List.flatMap_cons, List.length_append, length_toLE, ih, List.length_cons]
    omega

theorem length_unpackWords (n : ℕ) (b : List UInt8) : (unpackWords n b).length = n := by
  rw [unpackWords, List.length_map, List.length_range]

theorem length_block (key : List UInt8) (counter : ℕ) (nonce : List UInt8) :
    (block key counter nonce).length = 64 := by
  simp only [block, length_packWords, List.length_zipWith, length_rounds, List.length_append,
    length_unpackWords, constants, List.length_cons, List.length_nil]
  rfl

theorem block_mod (key : List UInt8) (counter : ℕ) (nonce : List UInt8) :
    block key (counter % 2 ^ 32) nonce = block key counter nonce := by
  have hword : UInt32.ofNat (counter % 2 ^ 32) = UInt32.ofNat counter := by
    apply UInt32.toNat.inj
    rw [UInt32.toNat_ofNat', UInt32.toNat_ofNat', Nat.mod_mod]
  rw [block, block, hword]

end ChaCha20

/-- `chacha20` from any counter: `counter + i // 64`, masked to 32 bits, numbers a block. -/
def chacha20From (key nonce data : List UInt8) (counter : ℤ) : Option (List UInt8) :=
  if key.length ≠ 32 then none
  else if nonce.length ≠ 12 then none
  else some (xorBlocks (fun i => ChaCha20.block key ((counter + i) % 2 ^ 32).toNat nonce) data)

theorem chacha20From_zero (key nonce data : List UInt8) :
    chacha20From key nonce data 0 = chacha20 key nonce data := by
  have hblocks : ∀ i : ℕ, ChaCha20.block key (((0 : ℤ) + i) % 2 ^ 32).toNat nonce =
      ChaCha20.block key (0 + i) nonce := by
    intro i
    have hnat : (((0 : ℤ) + i) % 2 ^ 32).toNat = (0 + i) % 2 ^ 32 := by omega
    rw [hnat, ChaCha20.block_mod]
  rw [chacha20From, chacha20, ChaCha20.xorStream, xorBlocks]
  simp only [hblocks]

theorem chacha20From_eq_some {key nonce : List UInt8} (hkey : key.length = 32)
    (hnonce : nonce.length = 12) (data : List UInt8) (counter : ℤ) :
    chacha20From key nonce data counter =
      some (xorBlocks (fun i => ChaCha20.block key ((counter + i) % 2 ^ 32).toNat nonce) data) := by
  rw [chacha20From, if_neg (not_not.2 hkey), if_neg (not_not.2 hnonce)]

theorem chacha20From_chacha20From {key nonce : List UInt8} (hkey : key.length = 32)
    (hnonce : nonce.length = 12) (data : List UInt8) (counter : ℤ) :
    ∃ ct, chacha20From key nonce data counter = some ct ∧ ct.length = data.length ∧
      chacha20From key nonce ct counter = some data := by
  have hblock : ∀ i : ℕ,
      (ChaCha20.block key ((counter + i) % 2 ^ 32).toNat nonce).length = 64 :=
    fun i => ChaCha20.length_block _ _ _
  refine ⟨_, chacha20From_eq_some hkey hnonce data counter, length_xorBlocks hblock data, ?_⟩
  rw [chacha20From_eq_some hkey hnonce, xorBlocks_xorBlocks hblock]

section
variable {F : Type} [FiniteFloat F] [DecidableEq F]

namespace EncryptedTransport

/-- The envelope that `send` hands to the inner transport, with the drawn nonce, the new id and
the time; `none` stands for the exception of `chacha20`. -/
def send (h : Hmac) (key : Key) (nonce : Bytes) (newId now : PyValue F) (m : Message F) :
    Option (Message F) :=
  (chacha20 key.bytes nonce m.toBytes.data.toList).map (fun ct =>
    { type := .str ENVELOPE, src := m.src, payload := sealed nonce ct (mac h key nonce ct),
      dst := .none, id := newId, ts := now })

section
omit [FiniteFloat F]

theorem hexField_sealed (nonce ct : Bytes) (tag : PyStr) :
    hexField nField (sealed nonce ct tag : PyValue F) = .ok nonce ∧
    hexField ctField (sealed nonce ct tag : PyValue F) = .ok ct := by
  have hn : field nField (sealed nonce ct tag : PyValue F) = .ok (.str (hexdigest nonce)) := rfl
  have hct : field ctField (sealed nonce ct tag : PyValue F) = .ok (.str (hexdigest ct)) := rfl
  constructor
  · simp only [hexField, hn, fromHex_hexdigest]
  · simp only [hexField, hct, fromHex_hexdigest]

end

section
omit [FiniteFloat F] [DecidableEq F]

theorem compareDigest_hexdigest (b : Bytes) :
    SecureTransport.compareDigest (.str (hexdigest b) : PyValue F) (hexdigest b) = some true := by
  have hascii : (hexdigest b).all (fun c => c.val < 128) = true := by
    rw [List.all_eq_true]
    intro c hc
    exact decide_eq_true (hexdigest_lt hc)
  rw [SecureTransport.compareDigest, if_pos hascii, decide_eq_true rfl]

end

theorem recv_sealed (h : Hmac) (key : Key) {nonce ct plaintext : Bytes}
    (hct : chacha20 key.bytes nonce ct = some plaintext) (newId now src dst id ts : PyValue F) :
    recv h key newId now
        ⟨.str ENVELOPE, src, sealed nonce ct (mac h key nonce ct), dst, id, ts⟩ =
      match Message.fromBytes newId now ⟨plaintext.toArray⟩ with
      | none => .raised
      | some inner => .handed inner := by
  have htype : (PyValue.str ENVELOPE : PyValue F).isStr ENVELOPE = true := by
    rw [PyValue.isStr, decide_eq_true rfl]
  have hmac : field macField (sealed nonce ct (mac h key nonce ct) : PyValue F) =
      .ok (.str (mac h key nonce ct)) := rfl
  obtain ⟨hnonce, hcipher⟩ := hexField_sealed (F := F) nonce ct (mac h key nonce ct)
  have htag : SecureTransport.compareDigest (.str (mac h key nonce ct) : PyValue F)
      (mac h key nonce ct) = some true := compareDigest_hexdigest _
  cases hinner : Message.fromBytes newId now ⟨plaintext.toArray⟩ with
  | none => simp only [recv, htype, if_true, hnonce, hcipher, hmac, openEnvelope, htag, hct, hinner]
  | some inner =>
    simp only [recv, htype, if_true, hnonce, hcipher, hmac, openEnvelope, htag, hct, hinner]

end EncryptedTransport

/-- What an encrypted channel takes comes out of it, and the cipher below it, from any counter,
keeps the length of the data and undoes itself. -/
theorem encrypted_channel_round_trip (h : Hmac) (key : EncryptedTransport.Key) {nonce : Bytes}
    (hnonce : nonce.length = 12) :
    (∀ (m : Message F) (envelopeId envelopeTs newId now : PyValue F),
      m.HeaderNative → native m.payload = true →
      ∃ envelope, EncryptedTransport.send h key nonce envelopeId envelopeTs m = some envelope ∧
        EncryptedTransport.recv h key newId now envelope = .handed m) ∧
    ∀ data counter, ∃ ct, chacha20From key.bytes nonce data counter = some ct ∧
      ct.length = data.length ∧ chacha20From key.bytes nonce ct counter = some data := by
  constructor
  · intro m envelopeId envelopeTs newId now hheader hpayload
    obtain ⟨ct, henc, -, hdec⟩ :=
      chacha20From_chacha20From key.size hnonce m.toBytes.data.toList 0
    rw [chacha20From_zero] at henc hdec
    have hparse := Message.fromBytes_toBytes m newId now
    rw [Message.viaJson_eq_self hheader hpayload] at hparse
    refine ⟨_, by rw [EncryptedTransport.send, henc, Option.map_some], ?_⟩
    rw [EncryptedTransport.recv_sealed h key hdec, Array.toArray_toList, hparse]
  · exact chacha20From_chacha20From key.size hnonce

end

def sealedSample : Message ℕ where
  type := .str (pyStr ['c', 'h', 'a', 't'])
  src := .str (pyStr ['a'])
  payload := .dict [(.str (pyStr ['t']), .list [.int 3, .str (pyStr ['0', 'f']), .none])]
  dst := .none
  id := .str (pyStr ['1'])
  ts := .float (.finite 7)

theorem encrypted_channel_round_trip_sample :
    ∃ envelope, EncryptedTransport.send (.marking default) ⟨List.replicate 32 7, rfl⟩
        (List.replicate 12 5) .none .none sealedSample = some envelope ∧
      EncryptedTransport.recv (.marking default) ⟨List.replicate 32 7, rfl⟩ .none .none envelope =
        .handed sealedSample :=
  (encrypted_channel_round_trip (F := ℕ) (.marking default) ⟨List.replicate 32 7, rfl⟩
    (show (List.replicate 12 5 : Bytes).length = 12 from rfl)).1 sealedSample .none .none .none
    .none
    ⟨by decide, by decide, by decide, by decide, by decide⟩ (by decide)

end Suprime
