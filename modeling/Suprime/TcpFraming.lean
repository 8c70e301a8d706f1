import Suprime.AuthRoundTrip
import Suprime.BadFrames

namespace Suprime
set_option autoImplicit true

namespace TcpTransport

section
variable {F : Type} [FiniteFloat F] [DecidableEq F]

/-- The flag and the body of a message: `compress` is `gzip.compress` at the time of the call. -/
def encodeBody (compress : List UInt8 → List UInt8) (compressOver : ℤ) (m : Message F) :
    List UInt8 :=
  let body := m.toBytes.data.toList
  if compressOver ≠ 0 ∧ (body.length : ℤ) > compressOver ∧
      (compress body).length < body.length then FLAG_GZIP :: compress body
  else 0 :: body

/-- `_encode_frame`; `none` stands for the `struct.error` of a length that needs more than four
bytes. -/
def encodeFrame (compress : List UInt8 → List UInt8) (compressOver : ℤ) (m : Message F) :
    Option (List UInt8) :=
  let payload := encodeBody compress compressOver m
  if payload.length < 2 ^ 32 then some (frame payload) else none

/-- The frames of the messages of a connection; each call of `gzip.compress` has its own time. -/
def encodeFrames (compressOver : ℤ) :
    (ℕ → List UInt8 → List UInt8) → List (Message F) → Option (List (List UInt8))
  | _, [] => some []
  | compress, m :: ms =>
    (encodeFrame (compress 0) compressOver m).bind (fun f =>
      (encodeFrames compressOver (fun i => compress (i + 1)) ms).map (f :: ·))

/-- How many frames end within the first `k` bytes. -/
def completeFrames (k : ℕ) : List (List UInt8) → ℕ
  | [] => 0
  | f :: fs => if f.length ≤ k then completeFrames (k - f.length) fs + 1 else 0

theorem completeFrames_of_le {k : ℕ} {fs : List (List UInt8)} (h : fs.flatten.length ≤ k) :
    completeFrames k fs = fs.length := by
  induction fs generalizing k with
  | nil => rfl
  | cons f fs ih =>
    rw [List.flatten_cons, List.length_append] at h
    have hf : f.length ≤ k := by omega
    have hrest : fs.flatten.length ≤ k - f.length := by omega
    rw [completeFrames, if_pos hf, ih hrest, List.length_cons]

theorem length_frame (p : List UInt8) : (frame p).length = p.length + 4 := by
  rw [frame, List.length_append, length_header, Nat.add_comm]

section
omit [DecidableEq F]

theorem encodeBody_ne_nil (compress : List UInt8 → List UInt8) (compressOver : ℤ)
    (m : Message F) : 1 ≤ (encodeBody compress compressOver m).length := by
  rw [encodeBody]
  split
  · exact Nat.succ_pos _
  · exact Nat.succ_pos _

end

theorem decodeBody_encodeBody {gz : Gzip} {compress : List UInt8 → List UInt8}
    (hgz : ∀ b, gz.decompress (compress b) = some b) (compressOver : ℤ) (d : Defaults F)
    (m : Message F) : decodeBody gz d (encodeBody compress compressOver m) = some m.viaJson := by
  have hparse := m.fromBytes_toBytes d.newId d.now
  have hset : ¬ FLAG_GZIP &&& FLAG_GZIP = 0 := by decide
  have hclear : (0 : UInt8) &&& FLAG_GZIP = 0 := by decide
  rw [encodeBody]
  split
  · rw [decodeBody, if_neg hset, hgz, Option.bind_some, Array.toArray_toList]
    exact hparse
  · rw [decodeBody, if_pos hclear, Option.bind_some, Array.toArray_toList]
    exact hparse

section
omit [DecidableEq F]

theorem encodeFrame_eq_some {compress : List UInt8 → List UInt8} {compressOver : ℤ}
    {m : Message F} {f : List UInt8} (h : encodeFrame compress compressOver m = some f) :
    (encodeBody compress compressOver m).length < 2 ^ 32 ∧
      f = frame (encodeBody compress compressOver m) := by
  rw [encodeFrame] at h
  split at h
  · rename_i hfits
    exact ⟨hfits, (Option.some.inj h).symm⟩
  · cases h

end

theorem handleClient_cut (gz : Gzip) {maxFrame : ℕ}
    (raises : List (Message F) → Message F → Bool) (defaults : ℕ → Defaults F)
    (past : List (Message F)) {p : List UInt8} (hlow : 1 ≤ p.length) (hhigh : p.length ≤ maxFrame)
    (hfits : p.length < 2 ^ 32) {k : ℕ} (hk : k < (frame p).length) :
    handleClient gz maxFrame raises defaults past ((frame p).take k) = ⟨past, .incomplete⟩ := by
  rw [length_frame] at hk
  by_cases hheader : k < 4
  · have hread : readExactly 4 ((frame p).take k) = none := by
      rw [readExactly, if_neg]
      rw [List.length_take]
      omega
    rw [handleClient, hread]
  · have hcut : (frame p).take k = header p.length ++ p.take (k - 4) := by
      rw [frame, List.take_append, length_header, List.take_of_length_le]
      rw [length_header]
      omega
    have hread : readExactly 4 (header p.length ++ p.take (k - 4)) =
        some (header p.length, p.take (k - 4)) := readExactly_append (length_header _) _
    have hunpack := unpackHeader_header hfits
    have hsize : ¬ (unpackHeader (header p.length) > maxFrame ∨
        unpackHeader (header p.length) < 1) := by omega
    have hbody : readExactly (unpackHeader (header p.length)) (p.take (k - 4)) = none := by
      rw [readExactly, if_neg]
      rw [List.length_take]
      omega
    rw [hcut, handleClient, hread]
    simp only [if_neg hsize]
    rw [hbody]

/-- The loop on a prefix of the frames hands over the messages whose frames are complete. -/
theorem handleClient_take {gz : Gzip} {compress : ℕ → List UInt8 → List UInt8}
    (hgz : ∀ i b, gz.decompress (compress i b) = some b) (compressOver : ℤ) {maxFrame : ℕ}
    {ms : List (Message F)} {frames : List (List UInt8)}
    (hframes : encodeFrames compressOver compress ms = some frames)
    (hsize : ∀ f ∈ frames, f.length ≤ maxFrame + 4) (defaults : ℕ → Defaults F)
    (past : List (Message F)) (k : ℕ) :
    handleClient gz maxFrame (fun _ _ => false) defaults past (frames.flatten.take k) =
      ⟨past ++ (ms.take (completeFrames k frames)).map Message.viaJson, .incomplete⟩ := by
  induction ms generalizing compress frames defaults past k with
  | nil =>
    cases hframes
    have hread : readExactly 4 (([] : List (List UInt8)).flatten.take k) = none := by
      rw [List.flatten_nil, List.take_nil]
      rfl
    rw [handleClient, hread, List.take_nil, List.map_nil, List.append_nil]
  | cons m ms ih =>
    rw [encodeFrames] at hframes
    obtain ⟨f, hf, hrest⟩ := Option.bind_eq_some_iff.1 hframes
    obtain ⟨fs, hfs, rfl⟩ := Option.map_eq_some_iff.1 hrest
    obtain ⟨hfits, rfl⟩ := encodeFrame_eq_some hf
    have hlow := encodeBody_ne_nil (compress 0) compressOver m
    have hhigh := hsize _ List.mem_cons_self
    rw [length_frame] at hhigh
    have hhigh := Nat.le_of_add_le_add_right hhigh
    rw [List.flatten_cons, List.take_append, completeFrames]
    by_cases hk : (frame (encodeBody (compress 0) compressOver m)).length ≤ k
    · rw [List.take_of_length_le hk, handleClient_frame gz _ defaults past hlow hhigh hfits,
        decodeBody_encodeBody (hgz 0)]
      simp only [Bool.false_eq_true, if_false]
      rw [ih (fun i => hgz (i + 1)) hfs (fun f hf => hsize f (List.mem_cons_of_mem _ hf)),
        if_pos hk, List.take_succ_cons, List.map_cons, List.append_assoc, List.singleton_append]
    · have hrest : k - (frame (encodeBody (compress 0) compressOver m)).length = 0 := by omega
      rw [hrest, List.take_zero, List.append_nil, if_neg hk, List.take_zero, List.map_nil,
        List.append_nil]
      exact handleClient_cut gz _ defaults past hlow hhigh hfits (Nat.lt_of_not_le hk)

section
omit [DecidableEq F]

theorem length_encodeFrames {compressOver : ℤ} {compress : ℕ → List UInt8 → List UInt8}
    {ms : List (Message F)} {frames : List (List UInt8)}
    (h : encodeFrames compressOver compress ms = some frames) : frames.length = ms.length := by
  induction ms generalizing compress frames with
  | nil =>
    cases h
    rfl
  | cons m ms ih =>
    rw [encodeFrames] at h
    obtain ⟨f, -, hrest⟩ := Option.bind_eq_some_iff.1 h
    obtain ⟨fs, hfs, rfl⟩ := Option.map_eq_some_iff.1 hrest
    rw [List.length_cons, List.length_cons, ih hfs]

end

/-- The loop hands over the messages of the frames, and of a stream that was cut off those whose
frames are complete. -/
theorem framing_lossless {gz : Gzip} {compress : ℕ → List UInt8 → List UInt8}
    (hgz : ∀ i b, gz.decompress (compress i b) = some b) (compressOver : ℤ) {maxFrame : ℕ}
    {ms : List (Message F)} {frames : List (List UInt8)}
    (hframes : encodeFrames compressOver compress ms = some frames)
    (hsize : ∀ f ∈ frames, f.length ≤ maxFrame + 4)
    (hnative : ∀ m ∈ ms, m.HeaderNative ∧ native m.payload = true) (defaults : ℕ → Defaults F) :
    handleClient gz maxFrame (fun _ _ => false) defaults [] frames.flatten = ⟨ms, .incomplete⟩ ∧
    ∀ k, handleClient gz maxFrame (fun _ _ => false) defaults [] (frames.flatten.take k) =
      ⟨ms.take (completeFrames k frames), .incomplete⟩ := by
  have hsame : ∀ l : List (Message F), (∀ m ∈ l, m ∈ ms) → l.map Message.viaJson = l := by
    intro l hl
    have hid : l.map Message.viaJson = l.map id := by
      apply List.map_congr_left
      intro m hm
      obtain ⟨hheader, hpayload⟩ := hnative m (hl m hm)
      exact Message.viaJson_eq_self hheader hpayload
    rw [hid, List.map_id]
  have hcut : ∀ k, handleClient gz maxFrame (fun _ _ => false) defaults []
      (frames.flatten.take k) = ⟨ms.take (completeFrames k frames), .incomplete⟩ := by
    intro k
    rw [handleClient_take hgz compressOver hframes hsize, List.nil_append,
      hsame _ (fun m hm => List.mem_of_mem_take hm)]
  refine ⟨?_, hcut⟩
  have hwhole := hcut frames.flatten.length
  rw [completeFrames_of_le (le_refl _), length_encodeFrames hframes, List.take_length,
    List.take_length] at hwhole
  exact hwhole

end

/-- A codec with one byte for the body of the greeting. -/
def shorthand : Gzip where
  decompress
    | [0] => some greeting.toBytes.data.toList
    | 1 :: b => some b
    | _ => none

def shorten (b : List UInt8) : List UInt8 :=
  if b = greeting.toBytes.data.toList then [0] else 1 :: b

theorem decompress_shorten (b : List UInt8) : shorthand.decompress (shorten b) = some b := by
  rw [shorten]
  split
  · rename_i hb
    rw [hb]
    rfl
  · rfl

def reply : Message ℕ := { greeting with id := .str [50] }

/-- A compressed frame and a plain one, and a stream that ends within the second. -/
theorem framing_lossless_greeting :
    handleClient shorthand 16777216 (fun _ _ => false) (fun _ => ⟨.none, .none⟩) []
        (frame [FLAG_GZIP, 0] ++ frame (plainFrame reply)) = ⟨[greeting, reply], .incomplete⟩ ∧
      handleClient shorthand 16777216 (fun _ _ => false) (fun _ => ⟨.none, .none⟩) []
        ((frame [FLAG_GZIP, 0] ++ frame (plainFrame reply)).take 50) =
        ⟨[greeting], .incomplete⟩ := by
  have hlen : (plainFrame greeting).length = 63 ∧ (plainFrame reply).length = 63 := by decide
  have hne : reply.toBytes.data.toList ≠ greeting.toBytes.data.toList := by decide
  have hbody : ∀ m : Message ℕ, m.toBytes.data.toList.length + 1 = (plainFrame m).length :=
    fun m => rfl
  have hshort : encodeBody shorten 1 greeting = [FLAG_GZIP, 0] := by
    have hsize := hbody greeting
    rw [encodeBody, shorten, if_pos rfl, if_pos ⟨by decide, by omega, by
      rw [List.length_singleton]
      omega⟩]
  have hplain : encodeBody shorten 1 reply = plainFrame reply := by
    rw [encodeBody, shorten, if_neg hne, if_neg (fun h => by
      have hlt := h.2.2
      rw [List.length_cons] at hlt
      omega), plainFrame]
  have hframes : encodeFrames 1 (fun _ => shorten) [greeting, reply] =
      some [frame [FLAG_GZIP, 0], frame (plainFrame reply)] := by
    rw [encodeFrames, encodeFrame, hshort, if_pos (by decide), encodeFrames, encodeFrame, hplain,
      if_pos (by omega)]
    rfl
  have hsize : ∀ f ∈ [frame [FLAG_GZIP, 0], frame (plainFrame reply)],
      f.length ≤ 16777216 + 4 := by
    intro f hf
    rcases List.mem_cons.1 hf with rfl | hf
    · decide
    · rw [List.mem_singleton.1 hf, length_frame]
      omega
  have hnative : ∀ m ∈ [greeting, reply], m.HeaderNative ∧ native m.payload = true := by
    intro m hm
    rcases List.mem_cons.1 hm with rfl | hm
    · exact ⟨⟨by decide, by decide, by decide, by decide, by decide⟩, by decide⟩
    · rw [List.mem_singleton.1 hm]
      exact ⟨⟨by decide, by decide, by decide, by decide, by decide⟩, by decide⟩
  obtain ⟨hwhole, hcut⟩ := framing_lossless (fun _ => decompress_shorten) 1 hframes hsize hnative
    (fun _ => ⟨.none, .none⟩)
  have hcomplete : completeFrames 50 [frame [FLAG_GZIP, 0], frame (plainFrame reply)] = 1 := by
    have hfirst : (frame [FLAG_GZIP, 0]).length ≤ 50 := by decide
    have hsecond : ¬ (frame (plainFrame reply)).length ≤ 50 - (frame [FLAG_GZIP, 0]).length := by
      rw [length_frame, hlen.2]
      omega
    rw [completeFrames, if_pos hfirst, completeFrames, if_neg hsecond]
  have hfifty := hcut 50
  rw [hcomplete] at hfifty
  rw [List.flatten_cons, List.flatten_cons, List.flatten_nil, List.append_nil] at hwhole hfifty
  exact ⟨hwhole, hfifty⟩

end TcpTransport

end Suprime
