import Mathlib.Data.Option.Basic
import Mathlib.Algebra.Order.Ring.Int
import Suprime.Dict

namespace Suprime
set_option autoImplicit true

theorem Dict.same_iff [DecidableEq κ] {d e : Dict κ α} : d.Same e ↔
    (∀ p ∈ d.items, e.get p.1 = some p.2) ∧ ∀ p ∈ e.items, d.get p.1 = some p.2 := by
  constructor
  · intro h
    constructor
    · intro p hp
      rw [← h p.1]
      exact mem_items.1 hp
    · intro p hp
      rw [h p.1]
      exact mem_items.1 hp
  · rintro ⟨hde, hed⟩ k
    cases hk : d.get k with
    | some v => exact (hde (k, v) (mem_items.2 hk)).symm
    | none =>
      cases hk' : e.get k with
      | none => rfl
      | some v =>
        have hd := hed (k, v) (mem_items.2 hk')
        rw [hk] at hd
        cases hd

instance Dict.decidableSame [DecidableEq κ] [DecidableEq α] (d e : Dict κ α) :
    Decidable (d.Same e) :=
  decidable_of_iff _ same_iff.symm

instance Dict.decidableEq [DecidableEq κ] [DecidableEq α] : DecidableEq (Dict κ α) := fun d e =>
  decidable_of_iff (d.items = e.items)
    ⟨fun h => by cases d; cases e; cases h; rfl, fun h => by rw [h]⟩

structure VectorClock (ν : Type) where
  clock : Dict ν ℤ
  deriving DecidableEq

inductive ClockOrder
  | before
  | after
  | equal
  | concurrent
  deriving DecidableEq

namespace VectorClock

variable {ν : Type} [DecidableEq ν]

def init : VectorClock ν := ⟨.empty⟩

def count (vc : VectorClock ν) (k : ν) : ℤ := (vc.clock.get k).getD 0

def increment (vc : VectorClock ν) (n : ν) : VectorClock ν := ⟨vc.clock.set n (vc.count n + 1)⟩

/-- One turn of the loop of `merge`. -/
def mergeAt (merged : Dict ν ℤ) (p : ν × ℤ) : Dict ν ℤ :=
  let cur := (merged.get p.1).getD 0
  merged.set p.1 (if p.2 > cur then p.2 else cur)

def merge (vc other : VectorClock ν) : VectorClock ν := ⟨other.clock.items.foldl mergeAt vc.clock⟩

/-- One turn of the loops of `compare` with the flags `is_less` and `is_greater`, `none` where it
returns `"concurrent"`. -/
def compareAt (flags : Bool × Bool) (p : ℤ × ℤ) : Option (Bool × Bool) :=
  if p.1 < p.2 then if flags.2 then none else some (true, flags.2)
  else if p.1 > p.2 then if flags.1 then none else some (flags.1, true)
  else some flags

def compare (vc other : VectorClock ν) : ClockOrder :=
  let own := vc.clock.keys.map (fun k => (vc.count k, other.count k))
  let rest := (other.clock.keys.filter (· ∉ vc.clock.keys)).map (fun k => (0, other.count k))
  match (own.foldlM compareAt (false, false)).bind (rest.foldlM compareAt) with
  | none => .concurrent
  | some flags => if flags.1 then .before else if flags.2 then .after else .equal

/-- Some first count is less than the second one. -/
def anyLess (l : List (ℤ × ℤ)) : Bool := l.any (fun p => p.1 < p.2)

def anyGreater (l : List (ℤ × ℤ)) : Bool := l.any (fun p => p.2 < p.1)

theorem foldlM_compareAt (l : List (ℤ × ℤ)) (less greater : Bool)
    (h : (less && greater) = false) :
    l.foldlM compareAt (less, greater) =
      if (less || anyLess l) && (greater || anyGreater l) then none
      else some (less || anyLess l, greater || anyGreater l) := by
  induction l generalizing less greater with
  | nil =>
    have hnil : anyLess [] = false ∧ anyGreater [] = false := ⟨rfl, rfl⟩
    rw [hnil.1, hnil.2, Bool.or_false, Bool.or_false, h]
    rfl
  | cons p l ih =>
    have hless : anyLess (p :: l) = (decide (p.1 < p.2) || anyLess l) := List.any_cons
    have hgreater : anyGreater (p :: l) = (decide (p.2 < p.1) || anyGreater l) := List.any_cons
    rw [List.foldlM_cons, compareAt, hless, hgreater, Option.bind_eq_bind]
    by_cases hlt : p.1 < p.2
    · rw [if_pos hlt, decide_eq_true hlt, decide_eq_false hlt.le.not_gt]
      cases greater with
      | true => simp
      | false =>
        rw [if_neg Bool.false_ne_true, Option.bind_some, ih true false rfl]
        simp
    · rw [if_neg hlt, decide_eq_false hlt]
      by_cases hgt : p.1 > p.2
      · rw [if_pos hgt, decide_eq_true (show p.2 < p.1 from hgt)]
        cases less with
        | true => simp
        | false =>
          rw [if_neg Bool.false_ne_true, Option.bind_some, ih false true rfl]
          simp
      · rw [if_neg hgt, decide_eq_false (show ¬ p.2 < p.1 from hgt), Option.bind_some,
          ih less greater h]
        simp

/-- The counts that `compare` looks at. -/
def pairs (vc other : VectorClock ν) : List (ℤ × ℤ) :=
  vc.clock.keys.map (fun k => (vc.count k, other.count k)) ++
    (other.clock.keys.filter (· ∉ vc.clock.keys)).map (fun k => (0, other.count k))

theorem count_of_not_mem {vc : VectorClock ν} (h : k ∉ vc.clock.keys) : vc.count k = 0 := by
  rw [Dict.mem_keys] at h
  cases hk : vc.clock.get k with
  | none => rw [count, hk, Option.getD_none]
  | some v => exact absurd ⟨v, hk⟩ h

theorem exists_mem_pairs (vc other : VectorClock ν) {R : ℤ → ℤ → Prop} (h : ¬ R 0 0) :
    (∃ p ∈ pairs vc other, R p.1 p.2) ↔ ∃ k, R (vc.count k) (other.count k) := by
  constructor
  · rintro ⟨p, hp, hR⟩
    rcases List.mem_append.1 hp with hp | hp
    · obtain ⟨k, _, rfl⟩ := List.mem_map.1 hp
      exact ⟨k, hR⟩
    · obtain ⟨k, hk, rfl⟩ := List.mem_map.1 hp
      refine ⟨k, ?_⟩
      rw [count_of_not_mem (of_decide_eq_true (List.mem_filter.1 hk).2)]
      exact hR
  · rintro ⟨k, hR⟩
    by_cases hk : k ∈ vc.clock.keys
    · exact ⟨_, List.mem_append_left _ (List.mem_map.2 ⟨k, hk, rfl⟩), hR⟩
    · by_cases hk' : k ∈ other.clock.keys
      · rw [count_of_not_mem hk] at hR
        refine ⟨_, List.mem_append_right _ (List.mem_map.2 ⟨k, ?_, rfl⟩), hR⟩
        exact List.mem_filter.2 ⟨hk', decide_eq_true hk⟩
      · rw [count_of_not_mem hk, count_of_not_mem hk'] at hR
        exact absurd hR h

theorem anyLess_pairs (vc other : VectorClock ν) :
    anyLess (pairs vc other) = true ↔ ∃ k, vc.count k < other.count k := by
  rw [← exists_mem_pairs vc other (lt_irrefl (0 : ℤ)), anyLess, List.any_eq_true]
  simp only [decide_eq_true_eq]

theorem anyGreater_pairs (vc other : VectorClock ν) :
    anyGreater (pairs vc other) = true ↔ ∃ k, other.count k < vc.count k := by
  have hpairs := exists_mem_pairs vc other (R := fun a b => b < a) (lt_irrefl (0 : ℤ))
  rw [← hpairs, anyGreater, List.any_eq_true]
  simp only [decide_eq_true_eq]

theorem compare_eq (vc other : VectorClock ν) : vc.compare other =
    if anyLess (pairs vc other) then
      if anyGreater (pairs vc other) then .concurrent else .before
    else if anyGreater (pairs vc other) then .after else .equal := by
  have hfold := foldlM_compareAt (pairs vc other) false false rfl
  rw [pairs, List.foldlM_append, ← pairs, Bool.false_or, Bool.false_or] at hfold
  rw [compare]
  rw [show ∀ o : Option (Bool × Bool), ∀ f, o.bind f = o >>= f from fun _ _ => rfl, hfold]
  cases anyLess (pairs vc other) <;> cases anyGreater (pairs vc other) <;> rfl

theorem compare_eq_before_iff (vc other : VectorClock ν) : vc.compare other = .before ↔
    (∃ k, vc.count k < other.count k) ∧ ∀ k, vc.count k ≤ other.count k := by
  rw [compare_eq, ← anyLess_pairs]
  have hle : (∀ k, vc.count k ≤ other.count k) ↔ ¬ anyGreater (pairs vc other) = true := by
    rw [anyGreater_pairs]
    simp only [not_exists, not_lt]
  rw [hle]
  cases anyLess (pairs vc other) <;> cases anyGreater (pairs vc other) <;> simp

theorem compare_eq_after_iff (vc other : VectorClock ν) :
    vc.compare other = .after ↔ other.compare vc = .before := by
  rw [compare_eq_before_iff, compare_eq, ← anyGreater_pairs]
  have hle : (∀ k, other.count k ≤ vc.count k) ↔ ¬ anyLess (pairs vc other) = true := by
    rw [anyLess_pairs]
    simp only [not_exists, not_lt]
  rw [hle]
  cases anyLess (pairs vc other) <;> cases anyGreater (pairs vc other) <;> simp

theorem get_mergeAt (d : Dict ν ℤ) (p : ν × ℤ) (k : ν) :
    (mergeAt d p).get k = if k = p.1 then some (max p.2 ((d.get k).getD 0)) else d.get k := by
  rw [mergeAt, Dict.get_set]
  by_cases hk : k = p.1
  · rw [if_pos hk, if_pos hk, hk]
    congr 1
    by_cases hgt : p.2 > (d.get p.1).getD 0
    · rw [if_pos hgt, max_eq_left hgt.le]
    · rw [if_neg hgt, max_eq_right (not_lt.1 hgt)]
  · rw [if_neg hk, if_neg hk]

theorem get_foldl_mergeAt (l : List (ν × ℤ)) (hl : (l.map Prod.fst).Nodup) (d : Dict ν ℤ)
    (k : ν) : (l.foldl mergeAt d).get k =
      match l.lookup k with
      | some v => some (max v ((d.get k).getD 0))
      | none => d.get k := by
  induction l generalizing d with
  | nil => rfl
  | cons p l ih =>
    obtain ⟨m, v⟩ := p
    rw [List.map_cons, List.nodup_cons] at hl
    rw [List.foldl_cons, ih hl.2, get_mergeAt]
    by_cases hk : k = m
    · subst hk
      rw [lookup_eq_none_of_not_mem hl.1, List.lookup_cons_self, if_pos rfl]
    · rw [lookup_cons_ne hk, if_neg hk]

theorem get_merge (vc other : VectorClock ν) (k : ν) : (vc.merge other).clock.get k =
    match other.clock.get k with
    | some v => some (max v (vc.count k))
    | none => vc.clock.get k :=
  get_foldl_mergeAt _ other.clock.nodup _ _

end VectorClock

end Suprime
