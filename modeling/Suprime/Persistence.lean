import Mathlib.Data.List.DropRight
import Mathlib.Order.Fin.Basic
import Suprime.JsonText
import Suprime.Store

namespace Suprime
set_option autoImplicit true

abbrev JsonEntry (F : Type) := Entry F PyStr (PyValue F)

/-- A store whose values are those that `json.dumps` accepts. -/
abbrev JsonStore (F : Type) := DistributedStore F PyStr PyStr (PyValue F)

instance : PyNone (PyValue F) := ⟨.none⟩

def keyField : PyStr := pyStr ['k', 'e', 'y']
def entryField : PyStr := pyStr ['e', 'n', 't', 'r', 'y']
def valueField : PyStr := pyStr ['v', 'a', 'l', 'u', 'e']
def tsField : PyStr := pyStr ['t', 's']
def originField : PyStr := pyStr ['o', 'r', 'i', 'g', 'i', 'n']
def deletedField : PyStr := pyStr ['d', 'e', 'l', 'e', 't', 'e', 'd']

def EntryData.toValue (d : EntryData F PyStr (PyValue F)) : PyValue F :=
  .dict (d.value.toList.map (fun v => (.str valueField, v)) ++
    [(.str tsField, .float (.finite d.ts)), (.str originField, .str d.origin)] ++
    d.deleted.toList.map (fun b => (.str deletedField, .bool b)))

section
variable [LinearOrder F] [FiniteFloat F]

/-- The fields that `Entry.from_dict` takes from a value; `none` where a field is missing or is
not of the type that an entry has. -/
def EntryData.ofValue : PyValue F → Option (EntryData F PyStr (PyValue F))
  | .dict l =>
    match l.lookup (.str tsField), l.lookup (.str originField) with
    | some (.float (.finite ts)), some (.str origin) =>
      some ⟨l.lookup (.str valueField), ts, origin, (l.lookup (.str deletedField)).map truthy⟩
    | _, _ => none
  | _ => none

def record (p : PyStr × JsonEntry F) : Text :=
  dumps (.dict [(.str keyField, .str p.1), (.str entryField, p.2.toDict.toValue)])

def readRecord : PyValue F → Option (PyStr × JsonEntry F)
  | .dict l =>
    match l.lookup (.str keyField), (l.lookup (.str entryField)).bind EntryData.ofValue with
    | some (.str key), some d => some (key, Entry.fromDict d)
    | _, _ => none
  | _ => none

def readItem : PyKey F × PyValue F → Option (PyStr × EntryData F PyStr (PyValue F))
  | (.str key, v) => (EntryData.ofValue v).map (fun d => (key, d))
  | _ => none

def readDigest : PyValue F → Option (Digest F PyStr PyStr (PyValue F))
  | .dict l => (l.mapM readItem).map Dict.ofList
  | _ => none

def digestText (d : Digest F PyStr PyStr (PyValue F)) : Text :=
  dumps (.dict (d.items.map (fun p => (.str p.1, p.2.toValue))))

/-- The two files of a directory. A log that does not exist is an empty one. -/
structure Disk where
  snapshot : Option Text
  wal : Text
  deriving DecidableEq

def isLineEnd (c : Char) : Bool := c = '\n' || c = '\r'

/-- The characters that `str.strip` removes. -/
def isSpace (c : Char) : Bool :=
  (9 ≤ c.toNat && c.toNat ≤ 13) || (28 ≤ c.toNat && c.toNat ≤ 32) || c.toNat = 133 ||
    c.toNat = 160 || c.toNat = 5760 || (8192 ≤ c.toNat && c.toNat ≤ 8202) || c.toNat = 8232 ||
    c.toNat = 8233 || c.toNat = 8239 || c.toNat = 8287 || c.toNat = 12288

def strip (t : Text) : Text := (t.dropWhile isSpace).rdropWhile isSpace

/-- A store during recovery and the number of entries recovered so far. -/
structure Recovered (F : Type) where
  store : JsonStore F
  count : ℕ

/-- The lines of the log in order, up to the first one that is not JSON. -/
def replay (r : Recovered F) : List Text → Option (Recovered F)
  | [] => some r
  | line :: lines =>
    if strip line = [] then replay r lines
    else
      match loads (strip line) with
      | none => some r
      | some v =>
        match readRecord v with
        | none => none
        | some (key, entry) => replay ⟨(r.store.mergeEntry key entry).store, r.count + 1⟩ lines

def loadSnapshot (r : Recovered F) : Option Text → Option (Recovered F)
  | none => some r
  | some t =>
    match loads t with
    | none => some r
    | some v =>
      (readDigest v).map
        (fun d => ⟨(r.store.applyDigest d).store, r.count + d.items.length⟩)

variable [Timestamp F]

/-- `recover` into a fresh store of node `n`; `none` stands for an exception. -/
def recover (n : PyStr) (disk : Disk) : Option (Recovered F) :=
  (loadSnapshot ⟨.init n, 0⟩ disk.snapshot).bind
    (fun r => replay r (disk.wal.splitOnP isLineEnd))

/-- A manager that is attached to its store. -/
structure PersistenceManager (F : Type) where
  store : JsonStore F
  snapshotEvery : ℕ
  sinceSnapshot : ℕ

/-- The points at which a crash can stop `snapshot`. -/
inductive SnapshotPoint
  | beforeReplace
  | beforeTruncate
  | afterTruncate
  deriving DecidableEq

namespace Disk

/-- The snapshot of a store in place of the old one. -/
def replace (d : Disk) (store : JsonStore F) : Disk :=
  { d with snapshot := some (digestText store.digest) }

def truncate (d : Disk) : Disk := { d with wal := [] }

def snapshotUntil (d : Disk) (store : JsonStore F) : SnapshotPoint → Disk
  | .beforeReplace => d
  | .beforeTruncate => d.replace store
  | .afterTruncate => (d.replace store).truncate

/-- The first `k` characters of a record and its line end at the end of the log. -/
def append (d : Disk) (p : PyStr × JsonEntry F) (k : ℕ) : Disk :=
  { d with wal := d.wal ++ (record p ++ ['\n']).take k }

def appendLine (d : Disk) (p : PyStr × JsonEntry F) : Disk :=
  { d with wal := d.wal ++ (record p ++ ['\n']) }

end Disk

/-- The calls by which a store commits entries. -/
inductive CommitCall (F : Type)
  | set (key : PyStr) (value : PyValue F) (clock : F)
  | delete (key : PyStr) (clock : F)
  | mergeEntry (key : PyStr) (entry : JsonEntry F)

/-- The store after a call and the commits that the call reports. -/
def CommitCall.apply (s : JsonStore F) : CommitCall F → JsonStore F × List (PyStr × JsonEntry F)
  | .set key value clock => ((s.set key value clock).store, (s.set key value clock).committed)
  | .delete key clock => ((s.delete key clock).store, (s.delete key clock).committed)
  | .mergeEntry key entry => ((s.mergeEntry key entry).store, (s.mergeEntry key entry).committed)

/-- The points at which a crash can stop a commit. -/
inductive CrashPoint
  | append (k : ℕ)
  | snapshot (point : SnapshotPoint)
  deriving DecidableEq

/-- A directory and the process that uses it, if one is running. The last field is history:
the commits that were reported to `_on_commit` and from which it has returned. -/
structure Sessions (F : Type) where
  disk : Disk
  live : Option (PersistenceManager F)
  returned : List (PyStr × JsonEntry F)

inductive SessionAction (F : Type)
  | start (n : PyStr) (snapshotEvery : ℕ)
  | call (c : CommitCall F)
  | stop
  | crash
  | crashInCall (c : CommitCall F) (point : CrashPoint)
  | crashInStop (point : SnapshotPoint)

namespace Sessions

def init : Sessions F := ⟨⟨none, []⟩, none, []⟩

/-- `_on_commit`, from which the process returns. -/
def onCommit (s : Sessions F) (pm : PersistenceManager F) (p : PyStr × JsonEntry F) :
    Sessions F :=
  if pm.snapshotEvery ≤ pm.sinceSnapshot + 1 then
    ⟨((s.disk.appendLine p).replace pm.store).truncate, some { pm with sinceSnapshot := 0 },
      s.returned ++ [p]⟩
  else
    ⟨s.disk.appendLine p, some { pm with sinceSnapshot := pm.sinceSnapshot + 1 },
      s.returned ++ [p]⟩

/-- `_on_commit` up to a crash. -/
def onCommitUntil (s : Sessions F) (pm : PersistenceManager F) (p : PyStr × JsonEntry F) :
    CrashPoint → Option Disk
  | .append k => some (s.disk.append p k)
  | .snapshot point =>
    if pm.snapshotEvery ≤ pm.sinceSnapshot + 1 then
      some ((s.disk.appendLine p).snapshotUntil pm.store point)
    else none

def step (s : Sessions F) : SessionAction F → Option (Sessions F)
  | .start n snapshotEvery =>
    match s.live with
    | some _ => none
    | none =>
      (recover n s.disk).map
        (fun r => { s with live := some ⟨r.store, snapshotEvery, 0⟩ })
  | .call c =>
    s.live.bind (fun pm =>
      let (store, commits) := c.apply pm.store
      match commits with
      | [] => some { s with live := some { pm with store := store } }
      | [p] => some (s.onCommit { pm with store := store } p)
      | _ => none)
  | .stop =>
    s.live.map (fun pm => { s with disk := (s.disk.replace pm.store).truncate, live := none })
  | .crash => s.live.map (fun _ => { s with live := none })
  | .crashInCall c point =>
    s.live.bind (fun pm =>
      let (store, commits) := c.apply pm.store
      match commits with
      | [p] =>
        (s.onCommitUntil { pm with store := store } p point).map
          (fun d => { s with disk := d, live := none })
      | _ => none)
  | .crashInStop point =>
    s.live.map (fun pm => { s with disk := s.disk.snapshotUntil pm.store point, live := none })

end Sessions

end

end Suprime
