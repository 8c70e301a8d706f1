import Suprime.Counters
import Suprime.LwwMap
import Suprime.MvRegister
import Suprime.OrSet
import Suprime.PyCodec
import Suprime.ReprInjective
import Suprime.RgaSwarm

namespace Suprime
set_option autoImplicit true

variable {F : Type} [FiniteFloat F] [DecidableEq F]

namespace GCounter

def digestValue (d : Dict PyStr ℤ) : PyValue F := writeDict .int d

/-- What `apply_digest` reads from a value; `none` where it is not of the shape of a digest, here
and for the other types. -/
def readDigest : PyValue F → Option (Dict PyStr ℤ) := readDict readInt

def applyValue (c : GCounter PyStr) (v : PyValue F) : Option (GCounter PyStr × Bool) :=
  (readDigest v).map c.applyDigest

def PlainNodes (d : Dict PyStr ℤ) : Prop := ∀ p ∈ d.items, plain p.1 = true ∧ True

section
omit [FiniteFloat F]

theorem roundTrips_digest : RoundTrips (F := F) digestValue readDigest PlainNodes :=
  roundTrips_dict roundTrips_int

end

end GCounter

namespace PNCounter

def pField : PyStr := pyStr ['p']

def nField : PyStr := pyStr ['n']

def Digest.toValue (d : Digest PyStr) : PyValue F :=
  writeItems [(pField, GCounter.digestValue d.p), (nField, GCounter.digestValue d.n)]

def readDigest (v : PyValue F) : Option (Digest PyStr) := do
  let p ← getField pField (.dict []) v
  let n ← getField nField (.dict []) v
  let p ← GCounter.readDigest p
  let n ← GCounter.readDigest n
  some ⟨p, n⟩

def applyValue (c : PNCounter PyStr) (v : PyValue F) : Option (PNCounter PyStr × Bool) :=
  (readDigest v).map c.applyDigest

def Digest.Plain (d : Digest PyStr) : Prop := GCounter.PlainNodes d.p ∧ GCounter.PlainNodes d.n

section
omit [FiniteFloat F]

theorem roundTrips_digest : RoundTrips (F := F) Digest.toValue readDigest Digest.Plain := by
  intro d hd
  obtain ⟨hnp, hp⟩ := GCounter.roundTrips_digest (F := F) d.p hd.1
  obtain ⟨hnn, hn⟩ := GCounter.roundTrips_digest (F := F) d.n hd.2
  constructor
  · exact native_fields (by decide) (by decide) (by decide) hnp hnn
  · rw [readDigest, Digest.toValue, getField_writeItems, getField_writeItems]
    change (GCounter.readDigest (GCounter.digestValue d.p)).bind (fun p =>
      (GCounter.readDigest (GCounter.digestValue d.n)).bind (fun n => some ⟨p, n⟩)) = some d
    rw [hp, hn]
    rfl

end

end PNCounter

/-- The JSON scalars. -/
inductive JsonScalar (F : Type)
  | null
  | bool (b : Bool)
  | int (i : ℤ)
  | float (f : F)
  | str (s : PyStr)
  deriving DecidableEq

namespace JsonScalar

def toValue : JsonScalar F → PyValue F
  | .null => .none
  | .bool b => .bool b
  | .int i => .int i
  | .float f => .float (.finite f)
  | .str s => .str s

def ofValue : PyValue F → Option (JsonScalar F)
  | .none => some .null
  | .bool b => some (.bool b)
  | .int i => some (.int i)
  | .float (.finite f) => some (.float f)
  | .str s => some (.str s)
  | _ => none

def Plain : JsonScalar F → Prop
  | .str s => plain s = true
  | _ => True

section
omit [FiniteFloat F]

theorem roundTrips_scalar : RoundTrips (F := F) toValue ofValue Plain := by
  intro x hx
  cases x with
  | str s => exact ⟨hx, rfl⟩
  | null => exact ⟨rfl, rfl⟩
  | bool b => exact ⟨rfl, rfl⟩
  | int i => exact ⟨rfl, rfl⟩
  | float f => exact ⟨rfl, rfl⟩

end

section
omit [FiniteFloat F] [DecidableEq F]

theorem toValue_injective : Function.Injective (toValue : JsonScalar F → PyValue F) := by
  intro x y h
  have hread : ∀ x : JsonScalar F, ofValue x.toValue = some x := by
    intro x
    cases x <;> rfl
  have hx := hread x
  rw [h, hread y] at hx
  exact (Option.some.inj hx).symm

end

end JsonScalar

/-- Elements that are JSON scalars up to Python's equality, with the object that stands for each:
`1`, `1.0` and `True` are one element. -/
class ScalarClass (ε : Type) (F : outParam Type) where
  ofScalar : JsonScalar F → ε
  rep : ε → JsonScalar F
  ofScalar_rep : ∀ x, ofScalar (rep x) = x

instance [UnicodeData] [ScalarClass ε F] : HasRepr ε := ⟨fun x => repr (ScalarClass.rep x).toValue⟩

namespace ORSet

variable {ε : Type} [DecidableEq ε] [UnicodeData] [ScalarClass ε F]

section
omit [DecidableEq F] [DecidableEq ε]

theorem reprDistinct (c : ORSet ε) : c.ReprDistinct := by
  apply List.Nodup.map _ c.adds.nodup
  intro x y h
  have hrep := JsonScalar.toValue_injective (repr_injective h)
  rw [← ScalarClass.ofScalar_rep x, hrep, ScalarClass.ofScalar_rep]

end

def addsField : PyStr := pyStr ['a', 'd', 'd', 's']

def removedField : PyStr := pyStr ['r', 'e', 'm', 'o', 'v', 'e', 'd']

def addValue (v : ε × List PyStr) : PyValue F :=
  .list [(ScalarClass.rep v.1).toValue, writeList .str v.2]

def readAdd : PyValue F → Option (ε × List PyStr)
  | .list (e :: tags :: _) => do
    let e ← JsonScalar.ofValue e
    let tags ← readList readStr tags
    some (ScalarClass.ofScalar e, tags)
  | _ => none

def Digest.toValue (d : Digest ε) : PyValue F :=
  writeItems [(addsField, writeItems (d.adds.items.map (fun p => (pyStr p.1, addValue p.2)))),
    (removedField, writeList .str d.removed)]

/-- The temporary peer that `apply_digest` builds. -/
def peerOf (adds removed : PyValue F) : Option (ORSet ε) := do
  let values ← dictValues adds
  let pairs ← values.mapM readAdd
  let removed ← readList readStr removed
  some {
    nodeId := []
    counter := 0
    adds := .ofList (pairs.map (fun v => (v.1, v.2.toFinset)))
    removed := removed.toFinset }

def readPeer (v : PyValue F) : Option (ORSet ε) := do
  let adds ← getField addsField (.dict []) v
  let removed ← getField removedField (.list []) v
  peerOf adds removed

def applyValue (c : ORSet ε) (v : PyValue F) : Option (ORSet ε × Bool) :=
  (readPeer v).map c.merge

/-- Strings that JSON keeps. -/
def Digest.Plain (d : Digest ε) : Prop :=
  (∀ p ∈ d.adds.items, (ScalarClass.rep p.2.1).Plain ∧ ∀ t ∈ p.2.2, plain t = true) ∧
    ∀ t ∈ d.removed, plain t = true

section
omit [FiniteFloat F] [DecidableEq ε] [UnicodeData]

theorem roundTrips_add : RoundTrips (F := F) addValue (readAdd (ε := ε))
    (fun v => (ScalarClass.rep v.1).Plain ∧ ∀ t ∈ v.2, plain t = true) := by
  intro v hv
  obtain ⟨hne, he⟩ := JsonScalar.roundTrips_scalar (ScalarClass.rep v.1) hv.1
  obtain ⟨hnt, ht⟩ := roundTrips_list (roundTrips_str (F := F)) v.2 hv.2
  constructor
  · rw [addValue, native, nativeList, nativeList, hne, hnt]
    rfl
  · rw [addValue, readAdd, he, ht]
    change some (ScalarClass.ofScalar (ScalarClass.rep v.1), v.2) = some v
    rw [ScalarClass.ofScalar_rep]

end

section
omit [UnicodeData]

theorem isHigh_pyChar (c : Char) : isHigh (pyChar c) = false := by
  have hvalid : c.toNat.isValidChar := c.valid
  unfold Nat.isValidChar at hvalid
  have hval : (pyChar c).val = c.toNat := Nat.mod_eq_of_lt (by omega)
  rw [isHigh, hval]
  simp only [Bool.and_eq_false_iff, decide_eq_false_iff_not]
  omega

theorem plain_pyStr (t : Text) : plain (pyStr t) = true := by
  induction t with
  | nil => rfl
  | cons c t ih =>
    cases t with
    | nil => rfl
    | cons d t =>
      change (!(isHigh (pyChar c) && isLow (pyChar d)) && plain (pyStr (d :: t))) = true
      rw [isHigh_pyChar, ih]
      rfl

end

section
omit [FiniteFloat F] [UnicodeData]

theorem roundTrips_digest (d : Digest ε) (hd : d.Plain) : native (d.toValue (F := F)) = true ∧
    readPeer (d.toValue (F := F)) = some (ofDigest d) := by
  have hadds : ∀ p ∈ d.adds.items, native (addValue (F := F) p.2) = true ∧
      readAdd (ε := ε) (addValue (F := F) p.2) = some p.2 :=
    fun p hp => roundTrips_add p.2 (hd.1 p hp)
  obtain ⟨hnr, hr⟩ := roundTrips_list (roundTrips_str (F := F)) d.removed hd.2
  constructor
  · apply native_fields (by decide) (by decide) (by decide) ?_ hnr
    apply native_writeItems
    · rw [List.map_map]
      have hkeys := d.adds.nodup.map pyChar_injective.list_map
      rw [List.map_map] at hkeys
      exact hkeys
    · intro q hq
      obtain ⟨p, hp, rfl⟩ := List.mem_map.1 hq
      exact ⟨plain_pyStr p.1, (hadds p hp).1⟩
  · have hvalues : (d.adds.items.map (fun p => (pyStr p.1, addValue (F := F) p.2))).map Prod.snd =
        d.adds.values.map addValue := by
      rw [Dict.values, List.map_map, List.map_map]
      rfl
    have hpairs : (d.adds.values.map (addValue (F := F))).mapM (readAdd (ε := ε)) =
        some d.adds.values := by
      apply mapM_map_eq_some
      intro v hv
      obtain ⟨p, hp, rfl⟩ := List.mem_map.1 hv
      exact (hadds p hp).2
    rw [readPeer, Digest.toValue, getField_writeItems, getField_writeItems]
    change peerOf (writeItems (d.adds.items.map (fun p => (pyStr p.1, addValue (F := F) p.2))))
      (writeList .str d.removed) = _
    rw [peerOf, dictValues_writeItems, hvalues]
    change ((d.adds.values.map (addValue (F := F))).mapM (readAdd (ε := ε))).bind (fun pairs =>
      (readList readStr (writeList .str d.removed : PyValue F)).bind _) = _
    rw [hpairs, hr]
    rfl

end

end ORSet

namespace LWWMap

variable {α : Type} [LinearOrder F]

def entryValue (v : PyValue F × F × PyStr) : PyValue F :=
  .list [v.1, .float (.finite v.2.1), .str v.2.2]

def readEntry : PyValue F → Option (PyValue F × F × PyStr)
  | .list (v :: .float (.finite ts) :: .str origin :: _) => some (v, ts, origin)
  | _ => none

def digestValue (d : Dict PyStr (PyValue F × F × PyStr)) : PyValue F := writeDict entryValue d

def readDigest : PyValue F → Option (Dict PyStr (PyValue F × F × PyStr)) := readDict readEntry

def applyValue (c : LWWMap PyStr PyStr (PyValue F) F) (v : PyValue F) :
    Option (LWWMap PyStr PyStr (PyValue F) F × Bool) :=
  (readDigest v).map c.applyDigest

def PlainEntries (d : Dict PyStr (PyValue F × F × PyStr)) : Prop :=
  ∀ p ∈ d.items, plain p.1 = true ∧ jsonNative p.2.1 = true ∧ plain p.2.2.2 = true

section
omit [FiniteFloat F] [LinearOrder F]

theorem roundTrips_entry : RoundTrips (F := F) entryValue readEntry
    (fun v => jsonNative v.1 = true ∧ plain v.2.2 = true) := by
  intro v hv
  refine ⟨?_, rfl⟩
  rw [entryValue, native, nativeList, nativeList, nativeList, native_of_jsonNative hv.1]
  change (true && (true && (plain v.2.2 && true))) = true
  rw [hv.2]
  rfl

theorem roundTrips_digest : RoundTrips (F := F) digestValue readDigest PlainEntries :=
  roundTrips_dict roundTrips_entry

end

end LWWMap

namespace MVRegister

def versionsField : PyStr := pyStr ['v', 'e', 'r', 's', 'i', 'o', 'n', 's']

def vcField : PyStr := pyStr ['v', 'c']

def versionValue (v : PyValue F × Dict PyStr ℤ) : PyValue F := .list [v.1, writeDict .int v.2]

def readVersion : PyValue F → Option (PyValue F × Dict PyStr ℤ)
  | .list (v :: vc :: _) => (readDict readInt vc).map (Prod.mk v)
  | _ => none

def Digest.toValue (d : Digest PyStr (PyValue F)) : PyValue F :=
  writeItems [(versionsField, writeList versionValue d.versions), (vcField, writeDict .int d.vc)]

def readDigest (v : PyValue F) : Option (Digest PyStr (PyValue F)) := do
  let versions ← getField versionsField (.list []) v
  let vc ← getField vcField (.dict []) v
  let versions ← readList readVersion versions
  let vc ← readDict readInt vc
  some ⟨versions, vc⟩

def applyValue [BEq (PyValue F)] (c : MVRegister PyStr (PyValue F)) (v : PyValue F) :
    Option (MVRegister PyStr (PyValue F) × Bool) :=
  (readDigest v).map c.applyDigest

/-- Values and node ids that JSON keeps. -/
def Digest.Plain (d : Digest PyStr (PyValue F)) : Prop :=
  (∀ v ∈ d.versions, jsonNative v.1 = true ∧ GCounter.PlainNodes v.2) ∧ GCounter.PlainNodes d.vc

section
omit [FiniteFloat F]

theorem roundTrips_version : RoundTrips (F := F) versionValue readVersion
    (fun v => jsonNative v.1 = true ∧ GCounter.PlainNodes v.2) := by
  intro v hv
  obtain ⟨hnc, hc⟩ := GCounter.roundTrips_digest (F := F) v.2 hv.2
  constructor
  · rw [versionValue, native, nativeList, nativeList, native_of_jsonNative hv.1]
    change (true && (native (writeDict .int v.2) && true)) = true
    rw [show native (writeDict .int v.2 : PyValue F) = true from hnc]
    rfl
  · change (readDict readInt (writeDict .int v.2 : PyValue F)).map (Prod.mk v.1) = some v
    rw [show readDict readInt (writeDict .int v.2 : PyValue F) = some v.2 from hc]
    rfl

theorem roundTrips_digest : RoundTrips (F := F) Digest.toValue readDigest Digest.Plain := by
  intro d hd
  obtain ⟨hnv, hv⟩ := roundTrips_list roundTrips_version d.versions hd.1
  obtain ⟨hnc, hc⟩ := GCounter.roundTrips_digest (F := F) d.vc hd.2
  constructor
  · exact native_fields (by decide) (by decide) (by decide) hnv hnc
  · rw [readDigest, Digest.toValue, getField_writeItems, getField_writeItems]
    change (readList readVersion (writeList versionValue d.versions)).bind (fun versions =>
      (readDict readInt (writeDict .int d.vc : PyValue F)).bind (fun vc =>
        some ⟨versions, vc⟩)) = some d
    rw [hv, show readDict readInt (writeDict .int d.vc : PyValue F) = some d.vc from hc]
    rfl

end

end MVRegister

namespace RGA

abbrev RawElem (F : Type) := ElemId PyStr × PyValue F × ElemId PyStr × Bool

def elemsField : PyStr := pyStr ['e', 'l', 'e', 'm', 's']

def idValue (i : ElemId PyStr) : PyValue F := .list [.int i.counter, .str i.node]

def readId : PyValue F → Option (ElemId PyStr)
  | .list (.int c :: .str n :: _) => some ⟨c, n⟩
  | _ => none

def elemValue (e : RawElem F) : PyValue F :=
  .list [idValue e.1, e.2.1, idValue e.2.2.1, .bool e.2.2.2]

def readElem : PyValue F → Option (RawElem F)
  | .list (i :: v :: after :: deleted :: _) => do
    let i ← readId i
    let after ← readId after
    let deleted ← readBool deleted
    some (i, v, after, deleted)
  | _ => none

def digestValue (d : List (RawElem F)) : PyValue F :=
  writeItems [(elemsField, writeList elemValue d)]

def readDigest (v : PyValue F) : Option (List (RawElem F)) := do
  let elems ← getField elemsField (.list []) v
  readList readElem elems

def applyValue (r : RGA PyStr (PyValue F)) (v : PyValue F) :
    Option (RGA PyStr (PyValue F) × Bool) :=
  (readDigest v).map r.applyDigest

/-- An element of node ids and a value that JSON keeps. -/
def PlainElem (e : RawElem F) : Prop :=
  plain e.1.node = true ∧ jsonNative e.2.1 = true ∧ plain e.2.2.1.node = true

section
omit [FiniteFloat F]

theorem native_idValue {i : ElemId PyStr} (h : plain i.node = true) :
    native (idValue i : PyValue F) = true := by
  change (true && (plain i.node && true)) = true
  rw [h]
  rfl

theorem roundTrips_elem : RoundTrips (F := F) elemValue readElem PlainElem := by
  intro e he
  refine ⟨?_, rfl⟩
  rw [elemValue, native, nativeList, nativeList, nativeList, nativeList, native_idValue he.1,
    native_of_jsonNative he.2.1, native_idValue he.2.2]
  rfl

theorem roundTrips_digest :
    RoundTrips (F := F) digestValue readDigest (fun d => ∀ e ∈ d, PlainElem e) := by
  intro d hd
  obtain ⟨hne, he⟩ := roundTrips_list roundTrips_elem d hd
  constructor
  · have hfield : plain elemsField = true := by decide
    apply native_writeItems
    · exact List.nodup_singleton elemsField
    · intro q hq
      cases List.mem_singleton.1 hq
      exact ⟨hfield, hne⟩
  · rw [readDigest, digestValue, getField_writeItems]
    exact he

end

end RGA

end Suprime
