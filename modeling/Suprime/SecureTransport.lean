import Mathlib.Data.Rat.Cast.Defs
import Suprime.Message
import Suprime.PyRepr

namespace Suprime
set_option autoImplicit true

abbrev Bytes := List UInt8

def sigField : PyStr := pyStr ['_', 's', 'i', 'g']
def pkField : PyStr := pyStr ['_', 'p', 'k']

/-- The number that a finite float is. -/
class RationalFloat (F : Type) where
  toRat : F → ℚ

instance : RationalFloat ℕ := ⟨fun n => n⟩

section
variable [RationalFloat F] [DecidableEq F]

/-- Equal keys of a dict have the same representative: `True`, `1` and `1.0` are equal. -/
def PyKey.number : PyKey F → PyKey F
  | .bool b => .int (if b then 1 else 0)
  | .float (.finite f) =>
    if (RationalFloat.toRat f).den = 1 then .int (RationalFloat.toRat f).num
    else .float (.finite f)
  | k => k

def dictSet (k : PyKey F) (v : PyValue F) :
    List (PyKey F × PyValue F) → List (PyKey F × PyValue F)
  | [] => [(k, v)]
  | (a, b) :: l => if a.number = k.number then (a, v) :: l else (a, b) :: dictSet k v l

/-- The key that a value can be. Lists and dicts are not hashable, and a dict with a tuple as key
is refused by `json.dumps`. -/
def PyValue.toKey : PyValue F → Option (PyKey F)
  | .none => some .none
  | .bool b => some (.bool b)
  | .int i => some (.int i)
  | .float f => some (.float f)
  | .str s => some (.str s)
  | _ => .none

/-- An element of a sequence that `dict` takes as a pair. -/
def pyPair : PyValue F → Option (PyKey F × PyValue F)
  | .list [k, v] => k.toKey.map (fun k => (k, v))
  | .tuple [k, v] => k.toKey.map (fun k => (k, v))
  | .str [a, b] => some (.str [a], .str [b])
  | .dict [(a, _), (b, _)] => some (a, b.toValue)
  | _ => none

/-- The dict that the insertions of pairs build, one after the other. -/
def dictFrom (l : List (PyKey F × PyValue F)) : List (PyKey F × PyValue F) :=
  l.foldl (fun d p => dictSet p.1 p.2 d) []

/-- `dict(v)`; `none` stands for an exception. -/
def pyDict : PyValue F → Option (List (PyKey F × PyValue F))
  | .dict l => some (dictFrom l)
  | .list l => (l.mapM pyPair).map dictFrom
  | .tuple l => (l.mapM pyPair).map dictFrom
  | .str [] => some []
  | _ => none

end

/-- `d.pop(k, None)` as far as it changes the dict. -/
def without [DecidableEq F] (s : PyStr) (l : List (PyKey F × PyValue F)) :
    List (PyKey F × PyValue F) :=
  l.filter (fun p => p.1 ≠ .str s)

def hexByte (b : UInt8) : Text := hexDigits 2 b.toNat

def hexdigest (b : Bytes) : PyStr := pyStr (b.flatMap hexByte)

/-- HMAC-SHA256 as a function of the key and the message. -/
structure Hmac where
  digest : Bytes → ByteArray → Bytes
  size : ∀ key m, (digest key m).length = 32

/-- Ed25519 and the hash of which `fingerprint` takes a part. -/
structure Ed25519 where
  publickey : Bytes → Bytes
  sign : Bytes → Bytes → ByteArray → Bytes
  verify : Bytes → ByteArray → Bytes → Bool
  sha256 : Bytes → Bytes
  publickey_size : ∀ sk, (publickey sk).length = 32
  sign_size : ∀ sk pk m, (sign sk pk m).length = 64
  verify_sign : ∀ sk m, verify (publickey sk) m (sign sk (publickey sk) m) = true

def Ed25519.fingerprint (c : Ed25519) (pk : Bytes) : PyStr := (hexdigest (c.sha256 pk)).take 16

/-- What `_recv` does with a message: hand it to the application, drop it and count it in
`rejected`, or raise an exception. -/
inductive Received (F : Type)
  | handed (m : Message F)
  | dropped
  | raised

/-- The value is the string `s`. -/
def PyValue.isStr (s : PyStr) : PyValue F → Bool
  | .str t => t = s
  | _ => false

section
variable [UnicodeData] [FiniteFloat F]

/-- The bytes of `repr(sorted(data.items()))`. -/
def reprSorted (data : List (PyStr × PyValue F)) : ByteArray :=
  encodeUtf8 (repr (.list ((data.insertionSort (fun p q => p.1 ≤ q.1)).map
    (fun p => .tuple [.str p.1, p.2]))))

namespace SecureTransport

/-- `_sign`, whose `data.pop` finds nothing because the tag is inside the payload. -/
def sign (h : Hmac) (clusterKey : Bytes) (m : Message F) : PyStr :=
  hexdigest (h.digest clusterKey (reprSorted (m.toDict.filter (fun p => p.1 ≠ sigField))))

variable [DecidableEq F]

/-- `hmac.compare_digest` of a tag with the expected one; `none` stands for `TypeError`. -/
def compareDigest (sig : PyValue F) (expected : PyStr) : Option Bool :=
  match sig with
  | .str s => if s.all (fun c => c.val < 128) then some (s = expected) else none
  | _ => none

def recv (h : Hmac) (clusterKey : Bytes) (m : Message F) : Received F :=
  match m.payload with
  | .dict l =>
    let m' := { m with payload := .dict (without sigField l) }
    match l.lookup (.str sigField) with
    | none => .dropped
    | some .none => .dropped
    | some sig =>
      match compareDigest sig (sign h clusterKey m') with
      | none => .raised
      | some false => .dropped
      | some true => .handed m'
  | _ => .dropped

variable [RationalFloat F]

/-- The message object after `send`, which is also what the inner transport is given. -/
def send (h : Hmac) (clusterKey : Bytes) (m : Message F) : Option (Message F) :=
  (pyDict m.payload).map (fun d =>
    let m' := { m with payload := .dict d }
    { m' with payload := .dict (assocSet (.str sigField) (.str (sign h clusterKey m')) d) })

/-- What the receiver does with the bytes of a message that `send` passed on. -/
def arrive (h : Hmac) (clusterKey : Bytes) (newId now : PyValue F) (sent : Message F) :
    Option (Received F) :=
  (Message.fromBytes newId now sent.toBytes).map (recv h clusterKey)

/-- A message from `send` to `_recv` over a transport that moves bytes. -/
def transmit (h : Hmac) (clusterKey : Bytes) (newId now : PyValue F) (m : Message F) :
    Option (Received F) :=
  (send h clusterKey m).bind (arrive h clusterKey newId now)

/-- The messages that the inner transport is given when one message object is sent to several
addresses: each call of `send` changes the object. -/
def sendAll (h : Hmac) (clusterKey : Bytes) (m : Message F) :
    List Text → Option (List (Text × Message F))
  | [] => some []
  | address :: addresses =>
    (send h clusterKey m).bind (fun sent =>
      (sendAll h clusterKey sent addresses).map (fun l => (address, sent) :: l))

end SecureTransport

namespace SignedTransport

variable [DecidableEq F] [RationalFloat F]

def canonical (m : Message F) : Option ByteArray :=
  (pyDict m.payload).map (fun d =>
    reprSorted { m with payload := .dict (without pkField (without sigField d)) }.toDict)

/-- `bytes.fromhex` on two digits. -/
def fromHexByte (a b : CodePoint) : Option UInt8 := do
  let x ← hexVal (Char.ofNat a.val)
  let y ← hexVal (Char.ofNat b.val)
  some (UInt8.ofNat (x * 16 + y))

def isHexSpace (c : CodePoint) : Bool :=
  c.val = 32 || (9 ≤ c.val && c.val ≤ 13)

/-- `bytes.fromhex`, which skips white space between bytes; `none` stands for `ValueError`. -/
def fromHex : PyStr → Option Bytes
  | [] => some []
  | [a] => if isHexSpace a then some [] else none
  | a :: b :: t =>
    if isHexSpace a then fromHex (b :: t)
    else (fromHexByte a b).bind (fun x => (fromHex t).map (x :: ·))

def recv (c : Ed25519) (m : Message F) : Received F :=
  match m.payload with
  | .dict l =>
    let m' := { m with payload := .dict (without pkField (without sigField l)) }
    let sigHex := l.lookup (.str sigField)
    let pkHex := l.lookup (.str pkField)
    if !(sigHex.any truthy && pkHex.any truthy) then .dropped
    else
      match pkHex, sigHex with
      | some (.str p), some (.str s) =>
        match fromHex p, fromHex s with
        | some pk, some sig =>
          if m.src.isStr (c.fingerprint pk) then
            match canonical m' with
            | some text => if c.verify pk text sig then .handed m' else .dropped
            | none => .raised
          else .dropped
        | _, _ => .dropped
      | some (.str p), _ => if (fromHex p).isNone then .dropped else .raised
      | _, _ => .raised
  | _ => .dropped

/-- The message object after `send`, which is also what the inner transport is given. -/
def send (c : Ed25519) (sk pk : Bytes) (m : Message F) : Option (Message F) :=
  (pyDict m.payload).bind (fun d =>
    let m' := { m with payload := .dict d }
    (canonical m').map (fun text =>
      let signed := assocSet (.str sigField) (.str (hexdigest (c.sign sk pk text))) d
      { m' with payload := .dict (assocSet (.str pkField) (.str (hexdigest pk)) signed) }))

/-- A message from `send` to `_recv` over a transport that moves bytes. -/
def transmit (c : Ed25519) (sk pk : Bytes) (newId now : PyValue F) (m : Message F) :
    Option (Received F) :=
  (send c sk pk m).bind (fun sent => (Message.fromBytes newId now sent.toBytes).map (recv c))

end SignedTransport

end

end Suprime
