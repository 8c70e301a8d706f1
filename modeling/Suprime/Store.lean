import Mathlib.Data.Prod.Lex
import Mathlib.Data.List.Lex
import Mathlib.Data.Char
import Mathlib.Data.Rat.Defs
import Mathlib.Algebra.Order.Ring.Rat
import Mathlib.Tactic.Linarith
import Suprime.Dict
import Suprime.Newest

namespace Suprime
set_option autoImplicit true

/-- Strings that are taken apart and compared by their characters. -/
abbrev Str := List Char

instance lawfulBEq_str : LawfulBEq Str := inferInstance

/-- Python's `None` as a value of the type that a store holds. -/
class PyNone (α : Type u) where
  pyNone : α

export PyNone (pyNone)

instance : PyNone (Option α) := ⟨none⟩

/-- Readings of a clock: `zero` is `0.0` and `nudge` adds the `1e-6` of `_next_version`. -/
class Timestamp (T : Type) [LinearOrder T] where
  zero : T
  nudge : T → T
  lt_nudge : ∀ t, t < nudge t

instance : Timestamp ℚ where
  zero := 0
  nudge t := t + 1 / 1000000
  lt_nudge t := by linarith

instance : Timestamp ℕ where
  zero := 0
  nudge t := t + 1
  lt_nudge t := Nat.lt_succ_self t

/-- A causality tag: the timestamp decides, the origin breaks ties. -/
structure Version (T : Type) (ν : Type) where
  ts : T
  origin : ν
  deriving DecidableEq

theorem Version.toLex_injective :
    Function.Injective (fun v : Version T ν => toLex (v.ts, v.origin)) := by
  intro v w h
  cases v
  cases w
  simpa using h

instance [LinearOrder T] [LinearOrder ν] : LinearOrder (Version T ν) :=
  LinearOrder.lift' (fun v : Version T ν => toLex (v.ts, v.origin)) Version.toLex_injective

theorem Version.lt_iff [LinearOrder T] [LinearOrder ν] {v w : Version T ν} :
    v < w ↔ v.ts < w.ts ∨ v.ts = w.ts ∧ v.origin < w.origin :=
  Prod.Lex.lt_iff

theorem Version.le_of_ts_lt [LinearOrder T] [LinearOrder ν] {v w : Version T ν}
    (h : v.ts < w.ts) : v < w :=
  Version.lt_iff.2 (.inl h)

structure Entry (T ν : Type) (α : Type u) where
  value : α
  version : Version T ν
  deleted : Bool
  deriving DecidableEq

/-- The dict that `to_dict` builds. A received one may lack `value` and `deleted`. -/
structure EntryData (T ν : Type) (α : Type u) where
  value : Option α
  ts : T
  origin : ν
  deleted : Option Bool
  deriving DecidableEq

def Entry.toDict (e : Entry T ν α) : EntryData T ν α :=
  ⟨some e.value, e.version.ts, e.version.origin, some e.deleted⟩

def Entry.fromDict [PyNone α] (d : EntryData T ν α) : Entry T ν α :=
  ⟨d.value.getD pyNone, ⟨d.ts, d.origin⟩, d.deleted.getD false⟩

@[simp] theorem Entry.fromDict_toDict [PyNone α] (e : Entry T ν α) :
    Entry.fromDict e.toDict = e := rfl

structure DistributedStore (T ν κ : Type) (α : Type u) where
  nodeId : ν
  data : Dict κ (Entry T ν α)
  highestTs : T

/-- What an operation leaves: the store, what it returned, and the calls it made to the
subscribers of changes and of commits. -/
structure Outcome (T ν κ : Type) (α : Type u) (ρ : Type w) where
  store : DistributedStore T ν κ α
  result : ρ
  notified : List (κ × α)
  committed : List (κ × Entry T ν α)

abbrev Digest (T ν κ : Type) (α : Type u) := Dict κ (EntryData T ν α)

namespace DistributedStore

variable {T ν κ : Type} {α : Type u}

def init [LinearOrder T] [Timestamp T] (n : ν) : DistributedStore T ν κ α :=
  ⟨n, .empty, Timestamp.zero⟩

/-- The timestamp of the next local version, from the reading of the clock. -/
def nextTs [LinearOrder T] [Timestamp T] (s : DistributedStore T ν κ α) (clock : T) : T :=
  if clock ≤ s.highestTs then Timestamp.nudge s.highestTs else clock

def nextVersion [LinearOrder T] [Timestamp T] (s : DistributedStore T ν κ α) (clock : T) :
    Version T ν × DistributedStore T ν κ α :=
  (⟨s.nextTs clock, s.nodeId⟩, { s with highestTs := s.nextTs clock })

theorem highestTs_lt_nextTs [LinearOrder T] [Timestamp T] (s : DistributedStore T ν κ α)
    (clock : T) :
    s.highestTs < s.nextTs clock := by
  by_cases h : clock ≤ s.highestTs
  · rw [nextTs, if_pos h]
    exact Timestamp.lt_nudge _
  · rw [nextTs, if_neg h]
    exact not_le.1 h

variable [DecidableEq κ]

def set [LinearOrder T] [Timestamp T] (s : DistributedStore T ν κ α) (key : κ) (value : α)
    (clock : T) : Outcome T ν κ α (Entry T ν α) :=
  let (version, s') := s.nextVersion clock
  let entry : Entry T ν α := ⟨value, version, false⟩
  ⟨{ s' with data := s'.data.set key entry }, entry, [(key, value)], [(key, entry)]⟩

def delete [LinearOrder T] [Timestamp T] [PyNone α] (s : DistributedStore T ν κ α) (key : κ)
    (clock : T) : Outcome T ν κ α (Option (Entry T ν α)) :=
  match s.data.get key with
  | none => ⟨s, none, [], []⟩
  | some _ =>
    let (version, s') := s.nextVersion clock
    let entry : Entry T ν α := ⟨pyNone, version, true⟩
    ⟨{ s' with data := s'.data.set key entry }, some entry, [(key, pyNone)], [(key, entry)]⟩

/-- The store after a local write of `e` to `key`. -/
def putLocal (s : DistributedStore T ν κ α) (key : κ) (e : Entry T ν α) :
    DistributedStore T ν κ α :=
  { s with data := s.data.set key e, highestTs := e.version.ts }

theorem set_store [LinearOrder T] [Timestamp T] (s : DistributedStore T ν κ α) (key : κ)
    (value : α) (clock : T) :
    (s.set key value clock).store = s.putLocal key ⟨value, ⟨s.nextTs clock, s.nodeId⟩, false⟩ :=
  rfl

def get (s : DistributedStore T ν κ α) (key : κ) (default : α) : α :=
  match s.data.get key with
  | none => default
  | some e => if e.deleted then default else e.value

def contains (s : DistributedStore T ν κ α) (key : κ) : Bool :=
  match s.data.get key with
  | none => false
  | some e => !e.deleted

def items (s : DistributedStore T ν κ α) : List (κ × α) :=
  (s.data.items.filter (fun p => !p.2.deleted)).map (fun p => (p.1, p.2.value))

theorem get_putLocal (s : DistributedStore T ν κ α) (key k : κ) (e : Entry T ν α) :
    (s.putLocal key e).data.get k = if k = key then some e else s.data.get k :=
  Dict.get_set _ _ _ _

theorem delete_of_none [LinearOrder T] [Timestamp T] [PyNone α]
    {s : DistributedStore T ν κ α} {key : κ} (h : s.data.get key = none) (clock : T) :
    s.delete key clock = ⟨s, none, [], []⟩ := by
  simp only [delete, h]

theorem delete_of_some [LinearOrder T] [Timestamp T] [PyNone α]
    {s : DistributedStore T ν κ α} {key : κ} {c : Entry T ν α} (h : s.data.get key = some c)
    (clock : T) :
    s.delete key clock =
      ⟨s.putLocal key ⟨pyNone, ⟨s.nextTs clock, s.nodeId⟩, true⟩,
        some ⟨pyNone, ⟨s.nextTs clock, s.nodeId⟩, true⟩, [(key, pyNone)],
        [(key, ⟨pyNone, ⟨s.nextTs clock, s.nodeId⟩, true⟩)]⟩ := by
  simp only [delete, h, nextVersion, putLocal]

variable [LinearOrder T] [LinearOrder ν]

def mergeEntry (s : DistributedStore T ν κ α) (key : κ) (entry : Entry T ν α) :
    Outcome T ν κ α Bool :=
  let accept : Outcome T ν κ α Bool :=
    ⟨{ s with
        data := s.data.set key entry
        highestTs :=
          if entry.version.origin = s.nodeId ∧ entry.version.ts > s.highestTs then
            entry.version.ts
          else s.highestTs },
      true, if entry.deleted then [] else [(key, entry.value)], [(key, entry)]⟩
  match s.data.get key with
  | none => accept
  | some current => if entry.version > current.version then accept else ⟨s, false, [], []⟩

def merge (s : DistributedStore T ν κ α) :
    List (κ × Entry T ν α) → Outcome T ν κ α Bool
  | [] => ⟨s, false, [], []⟩
  | (key, entry) :: snapshot =>
    let o := s.mergeEntry key entry
    let o' := o.store.merge snapshot
    ⟨o'.store, o.result || o'.result, o.notified ++ o'.notified, o.committed ++ o'.committed⟩

def digest (s : DistributedStore T ν κ α) : Digest T ν κ α :=
  s.data.map Entry.toDict

def applyDigest [PyNone α] (s : DistributedStore T ν κ α) (d : Digest T ν κ α) :
    Outcome T ν κ α Bool :=
  s.merge (d.items.map (fun p => (p.1, Entry.fromDict p.2)))

theorem mergeEntry_cases (s : DistributedStore T ν κ α) (key : κ) (e : Entry T ν α) :
    ((∀ c, s.data.get key = some c → c.version < e.version) ∧
      s.mergeEntry key e =
        ⟨⟨s.nodeId, s.data.set key e,
            if e.version.origin = s.nodeId ∧ e.version.ts > s.highestTs then e.version.ts
            else s.highestTs⟩,
          true, if e.deleted then [] else [(key, e.value)], [(key, e)]⟩) ∨
    ((∃ c, s.data.get key = some c ∧ e.version ≤ c.version) ∧
      s.mergeEntry key e = ⟨s, false, [], []⟩) := by
  cases hk : s.data.get key with
  | none =>
    refine .inl ⟨fun c hc => ?_, ?_⟩
    · cases hc
    · simp only [mergeEntry, hk]
  | some c =>
    by_cases hv : c.version < e.version
    · refine .inl ⟨fun c' hc' => ?_, ?_⟩
      · cases hc'
        exact hv
      · simp only [mergeEntry, hk, gt_iff_lt, if_pos hv]
    · refine .inr ⟨⟨c, rfl, not_lt.1 hv⟩, ?_⟩
      simp only [mergeEntry, hk, gt_iff_lt, if_neg hv]

theorem get_mergeEntry (s : DistributedStore T ν κ α) (key k : κ) (e : Entry T ν α) :
    (s.mergeEntry key e).store.data.get k =
      if k = key then some (newer Entry.version (s.data.get key) e) else s.data.get k := by
  rcases s.mergeEntry_cases key e with ⟨hlt, he⟩ | ⟨⟨c, hc, hle⟩, he⟩
  · have hn : newer Entry.version (s.data.get key) e = e := by
      cases hk : s.data.get key with
      | none => rfl
      | some c => exact if_pos (hlt c hk)
    rw [he, hn]
    exact Dict.get_set _ _ _ _
  · rw [he, hc]
    by_cases hk : k = key
    · subst hk
      rw [if_pos rfl, hc, newer, if_neg (not_lt.2 hle)]
    · rw [if_neg hk]

@[simp] theorem mergeEntry_nodeId (s : DistributedStore T ν κ α) (key : κ)
    (e : Entry T ν α) : (s.mergeEntry key e).store.nodeId = s.nodeId := by
  rcases s.mergeEntry_cases key e with ⟨_, he⟩ | ⟨_, he⟩ <;> rw [he]

theorem highestTs_le_mergeEntry (s : DistributedStore T ν κ α) (key : κ) (e : Entry T ν α) :
    s.highestTs ≤ (s.mergeEntry key e).store.highestTs := by
  rcases s.mergeEntry_cases key e with ⟨_, he⟩ | ⟨_, he⟩
  · rw [he]
    change s.highestTs ≤ if e.version.origin = s.nodeId ∧ e.version.ts > s.highestTs then
      e.version.ts else s.highestTs
    split
    · rename_i h
      exact h.2.le
    · exact le_rfl
  · rw [he]

theorem merge_cons (s : DistributedStore T ν κ α) (key : κ) (e : Entry T ν α)
    (l : List (κ × Entry T ν α)) :
    (s.merge ((key, e) :: l)).store = ((s.mergeEntry key e).store.merge l).store := rfl

theorem merge_append (s : DistributedStore T ν κ α) (l l' : List (κ × Entry T ν α)) :
    (s.merge (l ++ l')).store = ((s.merge l).store.merge l').store := by
  induction l generalizing s with
  | nil => rfl
  | cons p l ih => rw [List.cons_append, merge_cons, ih, merge_cons]

@[simp] theorem merge_nodeId (s : DistributedStore T ν κ α) (l : List (κ × Entry T ν α)) :
    (s.merge l).store.nodeId = s.nodeId := by
  induction l generalizing s with
  | nil => rfl
  | cons p l ih => rw [merge_cons, ih, mergeEntry_nodeId]

theorem highestTs_le_merge (s : DistributedStore T ν κ α) (l : List (κ × Entry T ν α)) :
    s.highestTs ≤ (s.merge l).store.highestTs := by
  induction l generalizing s with
  | nil => exact le_rfl
  | cons p l ih => exact (s.highestTs_le_mergeEntry p.1 p.2).trans (ih _)

theorem get_merge_mem {s : DistributedStore T ν κ α} {l : List (κ × Entry T ν α)} {k : κ}
    {e : Entry T ν α} (h : (s.merge l).store.data.get k = some e) :
    s.data.get k = some e ∨ (k, e) ∈ l := by
  induction l generalizing s with
  | nil => exact .inl h
  | cons p l ih =>
    rw [merge_cons] at h
    rcases ih h with hs | hl
    · rw [get_mergeEntry] at hs
      by_cases hk : k = p.1
      · rw [if_pos hk] at hs
        rcases newer_eq_or Entry.version (s.data.get p.1) p.2 with he | he
        · rw [he] at hs
          cases hs
          subst hk
          exact .inr List.mem_cons_self
        · subst hk
          exact .inl (he.trans hs)
      · rw [if_neg hk] at hs
        exact .inl hs
    · exact .inr (List.mem_cons_of_mem _ hl)

/-- The version held for a key never decreases under merges. -/
theorem get_mergeEntry_mono {s : DistributedStore T ν κ α} {k : κ} {e : Entry T ν α}
    (h : s.data.get k = some e) (key : κ) (x : Entry T ν α) :
    ∃ e', (s.mergeEntry key x).store.data.get k = some e' ∧ e.version ≤ e'.version := by
  rw [get_mergeEntry]
  by_cases hk : k = key
  · subst hk
    rw [if_pos rfl]
    exact ⟨_, rfl, le_newer_of_mem Entry.version h x⟩
  · rw [if_neg hk]
    exact ⟨e, h, le_rfl⟩

theorem get_merge_mono {s : DistributedStore T ν κ α} {k : κ} {e : Entry T ν α}
    (h : s.data.get k = some e) (l : List (κ × Entry T ν α)) :
    ∃ e', (s.merge l).store.data.get k = some e' ∧ e.version ≤ e'.version := by
  induction l generalizing s e with
  | nil => exact ⟨e, h, le_rfl⟩
  | cons p l ih =>
    obtain ⟨e', he', hle⟩ := get_mergeEntry_mono h p.1 p.2
    obtain ⟨e'', he'', hle'⟩ := ih he'
    exact ⟨e'', he'', hle.trans hle'⟩

end DistributedStore

end Suprime
