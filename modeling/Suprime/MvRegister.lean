import Suprime.Maxima
import Suprime.Replicas
import Suprime.VectorClock

namespace Suprime
set_option autoImplicit true

structure MVRegister (ν α : Type) where
  nodeId : ν
  vc : VectorClock ν
  versions : List (α × VectorClock ν)

structure MVRegister.Digest (ν α : Type) where
  versions : List (α × Dict ν ℤ)
  vc : Dict ν ℤ

namespace MVRegister

variable {ν α : Type} [DecidableEq ν] [BEq α]

def init (n : ν) : MVRegister ν α := ⟨n, .init, []⟩

def set (c : MVRegister ν α) (value : α) : MVRegister ν α :=
  let vc := c.vc.increment c.nodeId
  { c with vc := vc, versions := [(value, vc)] }

def values (c : MVRegister ν α) : List α := c.versions.map Prod.fst

/-- The inner loop of `merge` stops at a kept version: it is the same one or a later one. -/
def stopsAt (p k : α × VectorClock ν) : Bool :=
  (p.1 == k.1 && decide (p.2.clock.Same k.2.clock)) || decide (p.2.compare k.2 = .before)

/-- The inner loop of `merge` marks a kept version for removal. -/
def replaces (p k : α × VectorClock ν) : Bool := decide (p.2.compare k.2 = .after)

def kept (combined : List (α × VectorClock ν)) : List (α × VectorClock ν) :=
  combined.foldl (keepMaximal stopsAt replaces) []

/-- The pairs of `kept` are new objects, so the two sets of ids differ unless both are empty. -/
def merge (c other : MVRegister ν α) : MVRegister ν α × Bool :=
  let kept := kept (c.versions ++ other.versions)
  let changed := !(kept.isEmpty && c.versions.isEmpty)
  let c' := { c with versions := kept, vc := c.vc.merge other.vc }
  (c', changed || kept.length != c'.versions.length)

def joined (versions : List (α × VectorClock ν)) : VectorClock ν :=
  versions.foldl (fun vc p => vc.merge p.2) .init

def digest (c : MVRegister ν α) : Digest ν α where
  versions := c.versions.map (fun v => (v.1, v.2.clock))
  vc := c.vc.clock

/-- The temporary peer that a digest stands for. -/
def ofDigest [Inhabited ν] (d : Digest ν α) : MVRegister ν α where
  nodeId := default
  vc := ⟨d.vc⟩
  versions := d.versions.map (fun v => (v.1, ⟨v.2⟩))

def applyDigest [Inhabited ν] (c : MVRegister ν α) (d : Digest ν α) : MVRegister ν α × Bool :=
  c.merge (ofDigest d)

/-- The event of a `set` keeps the version that it wrote. -/
def perform (c : MVRegister ν α) (value : α) :
    Option (MVRegister ν α × (α × VectorClock ν)) :=
  some (c.set value, (value, c.vc.increment c.nodeId))

def replicaType [Inhabited ν] : ReplicaType ν α (α × VectorClock ν) (MVRegister ν α) where
  init := init
  perform := perform
  merge c other := (c.merge other).1
  absorb c other := (c.applyDigest other.digest).1

section
omit [DecidableEq ν] [BEq α]

theorem ofDigest_digest [Inhabited ν] (c : MVRegister ν α) :
    ofDigest c.digest = { c with nodeId := default } := by
  have hversions : c.digest.versions.map (fun v => (v.1, (⟨v.2⟩ : VectorClock ν))) =
      c.versions := by
    rw [digest, List.map_map]
    exact List.map_id _
  rw [ofDigest, hversions]
  rfl

end

/-- A digest stands for the state that it was taken of, as far as `merge` reads this. -/
theorem applyDigest_digest [Inhabited ν] (c d : MVRegister ν α) :
    c.applyDigest d.digest = c.merge d := by
  rw [applyDigest, ofDigest_digest]
  rfl

end MVRegister

/-- The count of a clock that has seen so many operations of a node. -/
def clockEntry (m : ℕ) : Option ℤ := if m = 0 then none else some m

theorem getD_clockEntry (m : ℕ) : (clockEntry m).getD 0 = m := by
  unfold clockEntry
  by_cases hm : m = 0
  · rw [if_pos hm, hm]
    rfl
  · rw [if_neg hm, Option.getD_some]

namespace VectorClock

variable {ν : Type} [DecidableEq ν] {vc other : VectorClock ν} {k : ν}

theorem count_of_get (h : vc.clock.get k = clockEntry m) : vc.count k = m := by
  rw [count, h, getD_clockEntry]

theorem get_merge_entry (h : vc.clock.get k = clockEntry m)
    (h' : other.clock.get k = clockEntry m') :
    (vc.merge other).clock.get k = clockEntry (max m m') := by
  rw [get_merge, h', count_of_get h, h]
  unfold clockEntry
  by_cases hm' : m' = 0
  · rw [if_pos hm', hm', Nat.max_zero]
  · have hmax : max m m' ≠ 0 := by omega
    rw [if_neg hm', if_neg hmax]
    simp only [Option.some.injEq]
    omega

theorem get_increment_entry {f : ν → ℕ} (h : ∀ k, vc.clock.get k = clockEntry (f k)) (n k : ν) :
    (vc.increment n).clock.get k = clockEntry (if k = n then f k + 1 else f k) := by
  rw [increment, Dict.get_set]
  by_cases hk : k = n
  · rw [if_pos hk, if_pos hk, ← hk, count_of_get (h k), clockEntry, if_neg (Nat.succ_ne_zero _)]
    rfl
  · rw [if_neg hk, if_neg hk, h k]

end VectorClock

end Suprime
