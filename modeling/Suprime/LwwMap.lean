import Mathlib.Data.Prod.Lex
import Mathlib.Algebra.Order.Ring.Int
import Suprime.JoinLoop
import Suprime.Replicas

namespace Suprime
set_option autoImplicit true

structure LWWEntry (ν α τ : Type) where
  value : α
  ts : τ
  origin : ν
  deriving DecidableEq

structure LWWMap (ν κ α τ : Type) where
  nodeId : ν
  entries : Dict κ (LWWEntry ν α τ)

/-- A call of `set`, with what the clock reads in it. -/
structure SetCall (κ α τ : Type) where
  key : κ
  value : α
  now : τ

section
variable {ν κ α τ : Type} [LinearOrder ν] [DecidableEq κ] [LinearOrder τ]

def LWWEntry.version (e : LWWEntry ν α τ) : τ ×ₗ ν := toLex (e.ts, e.origin)

def LWWEntry.newerThan (e other : LWWEntry ν α τ) : Bool := e.version > other.version

namespace LWWMap

def init (n : ν) : LWWMap ν κ α τ := ⟨n, .empty⟩

def set (c : LWWMap ν κ α τ) (call : SetCall κ α τ) : LWWMap ν κ α τ :=
  { c with entries := c.entries.set call.key ⟨call.value, call.now, c.nodeId⟩ }

def get (c : LWWMap ν κ α τ) (key : κ) : Option α := (c.entries.get key).map LWWEntry.value

/-- One turn of the loop of `merge`. -/
def mergeEntry (acc : Dict κ (LWWEntry ν α τ) × Bool) (p : κ × LWWEntry ν α τ) :
    Dict κ (LWWEntry ν α τ) × Bool :=
  match acc.1.get p.1 with
  | none => (acc.1.set p.1 p.2, true)
  | some cur => if p.2.newerThan cur then (acc.1.set p.1 p.2, true) else acc

def merge (c other : LWWMap ν κ α τ) : LWWMap ν κ α τ × Bool :=
  let acc := other.entries.items.foldl mergeEntry (c.entries, false)
  ({ c with entries := acc.1 }, acc.2)

def digest (c : LWWMap ν κ α τ) : Dict κ (α × τ × ν) :=
  c.entries.map (fun e => (e.value, e.ts, e.origin))

def applyDigest [Inhabited ν] (c : LWWMap ν κ α τ) (d : Dict κ (α × τ × ν)) :
    LWWMap ν κ α τ × Bool :=
  c.merge ⟨default, d.map (fun v => ⟨v.1, v.2.1, v.2.2⟩)⟩

def replicaType [Inhabited ν] : ReplicaType ν (SetCall κ α τ) Unit (LWWMap ν κ α τ) where
  init := init
  perform c call := some (c.set call, ())
  merge c other := (c.merge other).1
  absorb c other := (c.applyDigest other.digest).1

theorem applyDigest_digest [Inhabited ν] (c d : LWWMap ν κ α τ) :
    c.applyDigest d.digest = c.merge d := by
  have hitems : d.digest.items.map (fun p => (p.1, (⟨p.2.1, p.2.2.1, p.2.2.2⟩ : LWWEntry ν α τ))) =
      d.entries.items := by
    rw [digest, Dict.map, List.map_map]
    exact List.map_id _
  unfold applyDigest merge
  rw [show (d.digest.map (fun v => (⟨v.1, v.2.1, v.2.2⟩ : LWWEntry ν α τ))).items =
    d.entries.items from hitems]

/-- The entry of a key after another one was merged in. -/
def newer (cur other : Option (LWWEntry ν α τ)) : Option (LWWEntry ν α τ) :=
  match cur, other with
  | cur, none => cur
  | none, some e => some e
  | some c, some e => if e.newerThan c then some e else some c

theorem get_mergeEntry (acc : Dict κ (LWWEntry ν α τ) × Bool) (p : κ × LWWEntry ν α τ) (k : κ) :
    (mergeEntry acc p).1.get k =
      if k = p.1 then newer (acc.1.get k) (some p.2) else acc.1.get k := by
  unfold mergeEntry
  cases hcur : acc.1.get p.1 with
  | none =>
    by_cases hk : k = p.1
    · rw [if_pos hk, hk, hcur, newer]
      exact Dict.get_set_self _ _ _
    · rw [if_neg hk]
      exact Dict.get_set_ne _ _ hk
  | some cur =>
    dsimp only
    by_cases hnewer : p.2.newerThan cur = true
    · rw [if_pos hnewer]
      by_cases hk : k = p.1
      · rw [if_pos hk, hk, hcur, newer, if_pos hnewer]
        exact Dict.get_set_self _ _ _
      · rw [if_neg hk]
        exact Dict.get_set_ne _ _ hk
    · rw [if_neg hnewer]
      by_cases hk : k = p.1
      · rw [if_pos hk, hk, hcur, newer, if_neg hnewer]
      · rw [if_neg hk]

theorem joinLoop : JoinLoop (mergeEntry (ν := ν) (κ := κ) (α := α) (τ := τ))
    (fun d k => d.get k) (fun cur e => newer cur (some e)) where
  view_self acc p := by rw [get_mergeEntry, if_pos rfl]
  view_ne acc p k hk := by rw [get_mergeEntry, if_neg hk]
  flag acc p := by
    unfold mergeEntry
    cases hcur : acc.1.get p.1 with
    | none => exact iff_of_true rfl (.inr (by simp [newer]))
    | some cur =>
      dsimp only
      rw [newer]
      by_cases hnewer : p.2.newerThan cur = true
      · rw [if_pos hnewer, if_pos hnewer]
        refine iff_of_true rfl (.inr ?_)
        intro heq
        cases heq
        exact lt_irrefl _ (of_decide_eq_true hnewer)
      · rw [if_neg hnewer, if_neg hnewer]
        simp

theorem entry_merge (c other : LWWMap ν κ α τ) (k : κ) :
    (c.merge other).1.entries.get k = newer (c.entries.get k) (other.entries.get k) := by
  have hview := joinLoop.view_foldl other.entries.nodup (c.entries, false) k
  rw [show (c.merge other).1.entries = (other.entries.items.foldl mergeEntry
    (c.entries, false)).1 from rfl, hview, Dict.get, Dict.get]
  cases other.entries.items.lookup k with
  | none => cases c.entries.items.lookup k <;> rfl
  | some e => rfl

theorem newer_comm {a b : Option (LWWEntry ν α τ)}
    (h : ∀ x ∈ a, ∀ y ∈ b, x.version = y.version → x = y) : newer a b = newer b a := by
  cases a with
  | none => cases b <;> rfl
  | some x =>
    cases b with
    | none => rfl
    | some y =>
      have hxy := h x rfl y rfl
      unfold newer LWWEntry.newerThan
      dsimp only
      rcases lt_trichotomy x.version y.version with hlt | heq | hlt
      · rw [if_pos (decide_eq_true hlt), if_neg (by simpa using hlt.le)]
      · rw [hxy heq]
      · rw [if_neg (by simpa using hlt.le), if_pos (decide_eq_true hlt)]

theorem newer_eq_left_or_right (a b : Option (LWWEntry ν α τ)) :
    newer a b = a ∨ newer a b = b := by
  cases a with
  | none => cases b <;> exact .inr rfl
  | some x =>
    cases b with
    | none => exact .inl rfl
    | some y =>
      unfold newer
      dsimp only
      by_cases hnewer : y.newerThan x = true
      · rw [if_pos hnewer]
        exact .inr rfl
      · rw [if_neg hnewer]
        exact .inl rfl

theorem newer_newer {a b : Option (LWWEntry ν α τ)}
    (h : ∀ x ∈ a, ∀ y ∈ b, x.version = y.version → x = y) :
    newer b (newer a b) = newer a b := by
  have hself : ∀ o : Option (LWWEntry ν α τ), newer o o = o := by
    intro o
    cases o with
    | none => rfl
    | some x =>
      unfold newer LWWEntry.newerThan
      dsimp only
      rw [if_neg (by simp)]
  rcases newer_eq_left_or_right a b with hl | hr
  · rw [hl, ← newer_comm h, hl]
  · rw [hr, hself]

end LWWMap

end

end Suprime
