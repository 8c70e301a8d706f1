import Suprime.ChaCha20
import Suprime.PyCodec
import Suprime.SecureTransport

namespace Suprime
set_option autoImplicit true

namespace EncryptedTransport

def ENVELOPE : PyStr := pyStr ['_', '_', 'e', 'n', 'c', '_', '_']
def nField : PyStr := pyStr ['n']
def ctField : PyStr := pyStr ['c', 't']
def macField : PyStr := pyStr ['m', 'a', 'c']

/-- The key that the constructor accepts. -/
structure Key where
  bytes : Bytes
  size : bytes.length = 32

section
variable {F : Type} [FiniteFloat F] [DecidableEq F]

/-- What reading a field gives: a value, an exception that `_recv` catches, or one that it does
not. -/
inductive Field (α : Type)
  | ok (a : α)
  | caught
  | uncaught

/-- `message.payload[name]`: a dict may lack the key, everything else cannot be subscripted by a
string. -/
def field (name : PyStr) : PyValue F → Field (PyValue F)
  | .dict l =>
    match l.lookup (.str name) with
    | some v => .ok v
    | none => .caught
  | _ => .uncaught

/-- `bytes.fromhex(message.payload[name])` -/
def hexField (name : PyStr) (payload : PyValue F) : Field Bytes :=
  match field name payload with
  | .ok (.str s) =>
    match SignedTransport.fromHex s with
    | some b => .ok b
    | none => .caught
  | .ok _ => .uncaught
  | .caught => .caught
  | .uncaught => .uncaught

def mac (h : Hmac) (key : Key) (nonce ct : Bytes) : PyStr :=
  hexdigest (h.digest key.bytes ⟨(nonce ++ ct).toArray⟩)

/-- The payload of an envelope. -/
def sealed (nonce ct : Bytes) (tag : PyStr) : PyValue F :=
  writeItems [(nField, .str (hexdigest nonce)), (ctField, .str (hexdigest ct)),
    (macField, .str tag)]

/-- From the tag on. -/
def openEnvelope (h : Hmac) (key : Key) (newId now : PyValue F) (nonce ct : Bytes)
    (tag : PyValue F) : Received F :=
  match SecureTransport.compareDigest tag (mac h key nonce ct) with
  | none => .raised
  | some false => .dropped
  | some true =>
    match chacha20 key.bytes nonce ct with
    | none => .raised
    | some plaintext =>
      match Message.fromBytes newId now ⟨plaintext.toArray⟩ with
      | none => .raised
      | some inner => .handed inner

def recv (h : Hmac) (key : Key) (newId now : PyValue F) (m : Message F) : Received F :=
  if m.type.isStr ENVELOPE then
    match hexField nField m.payload with
    | .uncaught => .raised
    | .caught => .dropped
    | .ok nonce =>
      match hexField ctField m.payload with
      | .uncaught => .raised
      | .caught => .dropped
      | .ok ct =>
        match field macField m.payload with
        | .uncaught => .raised
        | .caught => .dropped
        | .ok tag => openEnvelope h key newId now nonce ct tag
  else .dropped

end

end EncryptedTransport

end Suprime
