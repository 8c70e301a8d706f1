import Mathlib.Data.List.Sort
import Mathlib.Order.Fin.Basic
import Mathlib.Data.List.Lex
import Suprime.JsonRoundTrip

namespace Suprime
set_option autoImplicit true

/-- `t.encode("utf-8")` for a text without surrogates. -/
def encodeUtf8 (t : Text) : ByteArray := (String.ofList t).toUTF8

/-- `b.decode("utf-8")`; `none` stands for `UnicodeDecodeError`. -/
def decodeUtf8 (b : ByteArray) : Option Text := (String.fromUTF8? b).map String.toList

theorem decodeUtf8_encodeUtf8 (t : Text) : decodeUtf8 (encodeUtf8 t) = some t := by
  have hvalid : (String.ofList t).toUTF8.IsValidUTF8 := (String.ofList t).isValidUTF8
  rw [decodeUtf8, encodeUtf8, String.fromUTF8?, dif_pos hvalid]
  exact congrArg some String.toList_ofList

theorem encodeUtf8_injective : Function.Injective encodeUtf8 := by
  intro t u h
  have hd := congrArg decodeUtf8 h
  rw [decodeUtf8_encodeUtf8, decodeUtf8_encodeUtf8] at hd
  exact Option.some.inj hd

def typeField : PyStr := pyStr ['t', 'y', 'p', 'e']
def srcField : PyStr := pyStr ['s', 'r', 'c']
def payloadField : PyStr := pyStr ['p', 'a', 'y', 'l', 'o', 'a', 'd']
def dstField : PyStr := pyStr ['d', 's', 't']
def idField : PyStr := pyStr ['i', 'd']
def timeField : PyStr := pyStr ['t', 's']

/-- The envelope between two nodes. Nothing checks the types of its fields. -/
structure Message (F : Type) where
  type : PyValue F
  src : PyValue F
  payload : PyValue F
  dst : PyValue F
  id : PyValue F
  ts : PyValue F

namespace Message

def toDict (m : Message F) : List (PyStr × PyValue F) :=
  [(typeField, m.type), (srcField, m.src), (payloadField, m.payload), (dstField, m.dst),
    (idField, m.id), (timeField, m.ts)]

variable [FiniteFloat F] [DecidableEq F]

def toBytes (m : Message F) : ByteArray :=
  encodeUtf8 (dumps (.dict (m.toDict.map (fun p => (.str p.1, p.2)))))

/-- The message of a dict. A missing `id` or `ts` is taken from `newId` and `now`; `none` stands
for an exception. -/
def fromDict (newId now : PyValue F) : PyValue F → Option (Message F)
  | .dict l =>
    match l.lookup (.str typeField), l.lookup (.str srcField) with
    | some type, some src =>
      some ⟨type, src, (l.lookup (.str payloadField)).getD (.dict []),
        (l.lookup (.str dstField)).getD .none, (l.lookup (.str idField)).getD newId,
        (l.lookup (.str timeField)).getD now⟩
    | _, _ => none
  | _ => none

def fromBytes (newId now : PyValue F) (raw : ByteArray) : Option (Message F) :=
  (decodeUtf8 raw).bind (fun t => (loads t).bind (fromDict newId now))

def viaJson (m : Message F) : Message F :=
  ⟨Suprime.viaJson m.type, Suprime.viaJson m.src, Suprime.viaJson m.payload,
    Suprime.viaJson m.dst, Suprime.viaJson m.id, Suprime.viaJson m.ts⟩

theorem fromDict_viaJson (m : Message F) (newId now : PyValue F) :
    fromDict newId now (Suprime.viaJson (.dict (m.toDict.map (fun p => (.str p.1, p.2))))) =
      some m.viaJson := rfl

theorem fromBytes_toBytes (m : Message F) (newId now : PyValue F) :
    fromBytes newId now m.toBytes = some m.viaJson := by
  rw [fromBytes, toBytes, decodeUtf8_encodeUtf8, Option.bind_some, loads_dumps, Option.bind_some,
    fromDict_viaJson]

end Message

end Suprime
