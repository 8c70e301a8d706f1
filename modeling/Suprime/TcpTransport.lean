import Suprime.Message
import Suprime.Octets

namespace Suprime
set_option autoImplicit true

/-- `gzip.decompress`; `none` stands for an exception. -/
structure Gzip where
  decompress : List UInt8 → Option (List UInt8)

namespace TcpTransport

def FLAG_GZIP : UInt8 := 1

/-- A length as `struct.pack(">I", n)` writes it. -/
def header (n : ℕ) : List UInt8 := (toLE 4 n).reverse

def unpackHeader (b : List UInt8) : ℕ := ofLE b.reverse

def frame (payload : List UInt8) : List UInt8 := header payload.length ++ payload

/-- `reader.readexactly(n)` of what the peer sends until it closes the connection; `none` stands
for `IncompleteReadError`. -/
def readExactly (n : ℕ) (stream : List UInt8) : Option (List UInt8 × List UInt8) :=
  if n ≤ stream.length then some (stream.take n, stream.drop n) else none

theorem length_readExactly {n : ℕ} {stream b rest : List UInt8}
    (h : readExactly n stream = some (b, rest)) : rest.length + n = stream.length := by
  rw [readExactly] at h
  split at h
  · rename_i hn
    cases h
    rw [List.length_drop]
    omega
  · cases h

theorem readExactly_append {n : ℕ} {b : List UInt8} (h : b.length = n) (rest : List UInt8) :
    readExactly n (b ++ rest) = some (b, rest) := by
  have hn : n ≤ (b ++ rest).length := by
    rw [List.length_append]
    omega
  rw [readExactly, if_pos hn, List.take_left' h, List.drop_left' h]

theorem unpackHeader_header {n : ℕ} (h : n < 2 ^ 32) : unpackHeader (header n) = n := by
  rw [unpackHeader, header, List.reverse_reverse, ofLE_toLE_of_lt h]

theorem length_header (n : ℕ) : (header n).length = 4 := by
  rw [header, List.length_reverse, length_toLE]

section
variable {F : Type} [FiniteFloat F] [DecidableEq F]

/-- What a message gets if it lacks an id or a time. -/
structure Defaults (F : Type) where
  newId : PyValue F
  now : PyValue F

/-- `_decode_body`; `none` stands for an exception of any class. -/
def decodeBody (gz : Gzip) (d : Defaults F) : List UInt8 → Option (Message F)
  | [] => none
  | flag :: body =>
    (if flag &&& FLAG_GZIP = 0 then some body else gz.decompress body).bind
      (fun body => Message.fromBytes d.newId d.now ⟨body.toArray⟩)

/-- Why the loop of a connection ended. -/
inductive Ended
  | incomplete
  | refused
  | raised
  deriving DecidableEq

structure Inbound (F : Type) where
  handed : List (Message F)
  ended : Ended

/-- `_handle_client` while the transport runs: `raises` tells whether `on_message` raises on a
message after those that it was handed, and `defaults` are the readings for each frame. Only the
end of the stream ends the loop without an exception or a refusal. -/
def handleClient (gz : Gzip) (maxFrame : ℕ) (raises : List (Message F) → Message F → Bool)
    (defaults : ℕ → Defaults F) (handed : List (Message F)) (stream : List UInt8) : Inbound F :=
  match _hh : readExactly 4 stream with
  | none => ⟨handed, .incomplete⟩
  | some (h, rest) =>
    if unpackHeader h > maxFrame ∨ unpackHeader h < 1 then ⟨handed, .refused⟩
    else
      match _hp : readExactly (unpackHeader h) rest with
      | none => ⟨handed, .incomplete⟩
      | some (payload, rest') =>
        match decodeBody gz (defaults 0) payload with
        | none => ⟨handed, .raised⟩
        | some m =>
          if raises handed m then ⟨handed ++ [m], .raised⟩
          else handleClient gz maxFrame raises (fun i => defaults (i + 1)) (handed ++ [m]) rest'
termination_by stream.length
decreasing_by
  have hlen := length_readExactly _hh
  have hlen' := length_readExactly _hp
  omega

theorem handleClient_frame (gz : Gzip) {maxFrame : ℕ}
    (raises : List (Message F) → Message F → Bool) (defaults : ℕ → Defaults F)
    (past : List (Message F)) {p : List UInt8} (hlow : 1 ≤ p.length) (hhigh : p.length ≤ maxFrame)
    (hfits : p.length < 2 ^ 32) (rest : List UInt8) :
    handleClient gz maxFrame raises defaults past (frame p ++ rest) =
      match decodeBody gz (defaults 0) p with
      | none => ⟨past, .raised⟩
      | some m =>
        if raises past m then ⟨past ++ [m], .raised⟩
        else handleClient gz maxFrame raises (fun i => defaults (i + 1)) (past ++ [m]) rest := by
  have hunpack := unpackHeader_header hfits
  have hread : readExactly 4 (header p.length ++ (p ++ rest)) =
      some (header p.length, p ++ rest) := readExactly_append (length_header _) _
  have hbody : readExactly (unpackHeader (header p.length)) (p ++ rest) = some (p, rest) :=
    readExactly_append hunpack.symm _
  have hsize : ¬ (unpackHeader (header p.length) > maxFrame ∨
      unpackHeader (header p.length) < 1) := by omega
  rw [frame, List.append_assoc, handleClient, hread]
  simp only [if_neg hsize]
  rw [hbody]

end

end TcpTransport

end Suprime
