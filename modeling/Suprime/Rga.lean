import Mathlib.Data.Prod.Lex
import Mathlib.Data.Int.Order.Basic
import Suprime.Dict
import Suprime.TreeWalk

namespace Suprime
set_option autoImplicit true

/-- An element id: the Lamport counter decides, the node breaks ties. -/
structure ElemId (ν : Type) where
  counter : ℤ
  node : ν
  deriving DecidableEq

theorem ElemId.toLex_injective :
    Function.Injective (fun i : ElemId ν => toLex (i.counter, i.node)) := by
  intro i j h
  cases i
  cases j
  simpa using h

instance [LinearOrder ν] : LinearOrder (ElemId ν) :=
  LinearOrder.lift' (fun i : ElemId ν => toLex (i.counter, i.node)) ElemId.toLex_injective

theorem ElemId.lt_of_counter_lt [LinearOrder ν] {i j : ElemId ν} (h : i.counter < j.counter) :
    i < j :=
  Prod.Lex.lt_iff.2 (.inl h)

/-- The implicit root `(0, "")`; the default node id stands for the empty string. -/
def ElemId.ROOT [Inhabited ν] : ElemId ν := ⟨0, default⟩

structure Elem (ν α : Type) where
  id : ElemId ν
  value : α
  after : ElemId ν
  deleted : Bool
  deriving DecidableEq

structure RGA (ν α : Type) where
  nodeId : ν
  counter : ℤ
  elems : Dict (ElemId ν) (Elem ν α)
  children : Dict (ElemId ν) (List (ElemId ν))

namespace RGA

variable {ν α : Type} [LinearOrder ν] [Inhabited ν]

def init (n : ν) : RGA ν α := ⟨n, 0, .empty, Dict.empty.set .ROOT []⟩

def childrenOf (r : RGA ν α) (p : ElemId ν) : List (ElemId ν) := (r.children.get p).getD []

def isShown (r : RGA ν α) (i : ElemId ν) : Bool :=
  match r.elems.get i with
  | some e => !e.deleted
  | none => false

/-- `_visible_ids`, with as many nested calls of `walk` as there can be nested elements. -/
def visibleIds (r : RGA ν α) : Option (List (ElemId ν)) :=
  walk r.childrenOf r.isShown (r.elems.items.length + 1) .ROOT

def applyInsert (r : RGA ν α) (eid : ElemId ν) (value : α) (after : ElemId ν) : RGA ν α :=
  match r.elems.get eid with
  | some _ => r
  | none =>
    let siblings := (r.childrenOf after ++ [eid]).insertionSort (fun a b => b ≤ a)
    { r with
      counter := max r.counter eid.counter
      elems := r.elems.set eid ⟨eid, value, after, false⟩
      children := (r.children.set after siblings).setDefault eid [] }

def nextId (r : RGA ν α) : ElemId ν × RGA ν α :=
  (⟨r.counter + 1, r.nodeId⟩, { r with counter := r.counter + 1 })

/-- The predecessor of an element inserted at a visible position. -/
def predecessor (visible : List (ElemId ν)) (index : ℤ) : Option (ElemId ν) :=
  if index > 0 then visible[(index - 1).toNat]? else some .ROOT

/-- `insert`: `none` where Python raises because `index` is past the end of the document. -/
def insert (r : RGA ν α) (index : ℤ) (value : α) : Option (ElemId ν × RGA ν α) := do
  let visible ← r.visibleIds
  let after ← predecessor visible index
  let (eid, r') := r.nextId
  some (eid, r'.applyInsert eid value after)

def append (r : RGA ν α) (value : α) : Option (ElemId ν × RGA ν α) := do
  let visible ← r.visibleIds
  r.insert visible.length value

def markDeleted (r : RGA ν α) (eid : ElemId ν) : RGA ν α :=
  match r.elems.get eid with
  | some e => { r with elems := r.elems.set eid { e with deleted := true } }
  | none => r

def delete (r : RGA ν α) (index : ℤ) : Option (Option (ElemId ν) × RGA ν α) := do
  let visible ← r.visibleIds
  if index < 0 ∨ index ≥ visible.length then some (none, r)
  else do
    let eid ← visible[index.toNat]?
    some (some eid, r.markDeleted eid)

def toList (r : RGA ν α) : Option (List α) := do
  let visible ← r.visibleIds
  some (visible.filterMap (fun i => (r.elems.get i).map Elem.value))

/-- One round of the loop of `merge`: the replica after it and whether it changed. -/
def mergeElem (r : RGA ν α) (oe : Elem ν α) (eid : ElemId ν) : RGA ν α × Bool :=
  let present := (r.elems.get eid).isSome
  let r' := if present then r else r.applyInsert eid oe.value oe.after
  if oe.deleted && r'.isShown eid then (r'.markDeleted eid, true) else (r', !present)

/-- `merge` with the elements of another replica, in the order of their ids. -/
def mergeIds (r : RGA ν α) (other : Dict (ElemId ν) (Elem ν α)) :
    List (ElemId ν) → RGA ν α × Bool
  | [] => (r, false)
  | eid :: ids =>
    match other.get eid with
    | none => r.mergeIds other ids
    | some oe =>
      let m := r.mergeElem oe eid
      let m' := m.1.mergeIds other ids
      (m'.1, m.2 || m'.2)

def merge (r : RGA ν α) (other : Dict (ElemId ν) (Elem ν α)) : RGA ν α × Bool :=
  r.mergeIds other (other.keys.insertionSort (· ≤ ·))

/-- A digest lists the elements as `[id, value, after, deleted]`. -/
def digest (r : RGA ν α) : List (ElemId ν × α × ElemId ν × Bool) :=
  r.elems.values.map (fun e => (e.id, e.value, e.after, e.deleted))

/-- The elements of the replica that `apply_digest` builds from a digest. -/
def elemsOfDigest (d : List (ElemId ν × α × ElemId ν × Bool)) : Dict (ElemId ν) (Elem ν α) :=
  .ofList (d.map (fun raw => (raw.1, ⟨raw.1, raw.2.1, raw.2.2.1, raw.2.2.2⟩)))

def applyDigest (r : RGA ν α) (d : List (ElemId ν × α × ElemId ν × Bool)) : RGA ν α × Bool :=
  r.merge (elemsOfDigest d)

end RGA

end Suprime
