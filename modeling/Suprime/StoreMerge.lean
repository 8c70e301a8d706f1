import Mathlib.Data.String.Basic
import Suprime.Store

namespace Suprime
set_option autoImplicit true

variable {T ν κ : Type} {α : Type u} [LinearOrder T] [LinearOrder ν] [DecidableEq κ]

namespace DistributedStore

/-- The entries that a list of pairs offers for a key. -/
def offered (l : List (κ × Entry T ν α)) (k : κ) : Set (Entry T ν α) := {e | (k, e) ∈ l}

theorem isNewest_mergeEntry {s : DistributedStore T ν κ α} {S : κ → Set (Entry T ν α)}
    (h : ∀ k, IsNewest Entry.version (S k) (s.data.get k)) (key : κ) (e : Entry T ν α) (k : κ) :
    IsNewest Entry.version (if k = key then insert e (S k) else S k)
      ((s.mergeEntry key e).store.data.get k) := by
  rw [get_mergeEntry]
  by_cases hk : k = key
  · subst hk
    rw [if_pos rfl, if_pos rfl]
    exact (h k).merge e
  · rw [if_neg hk, if_neg hk]
    exact h k

/-- Merging a list leaves, for every key, the newest of what was held and what was offered. -/
theorem isNewest_merge {s : DistributedStore T ν κ α} {S : κ → Set (Entry T ν α)}
    (h : ∀ k, IsNewest Entry.version (S k) (s.data.get k)) (l : List (κ × Entry T ν α)) (k : κ) :
    IsNewest Entry.version (S k ∪ offered l k) ((s.merge l).store.data.get k) := by
  induction l generalizing s S with
  | nil =>
    apply (h k).congr
    intro x
    simp [offered]
  | cons p l ih =>
    obtain ⟨key, e⟩ := p
    have hp := isNewest_mergeEntry h key e
    apply (ih (s := (s.mergeEntry key e).store) hp).congr
    intro x
    by_cases hk : k = key
    · subst hk
      simp only [offered, Set.mem_union, Set.mem_ofPred_eq, List.mem_cons, Prod.mk.injEq,
        true_and, if_pos, Set.mem_insert_iff]
      tauto
    · simp [offered, hk]

theorem isNewest_self (s : DistributedStore T ν κ α) (k : κ) :
    IsNewest Entry.version {e | s.data.get k = some e} (s.data.get k) := by
  cases hk : s.data.get k with
  | none => exact Set.eq_empty_of_forall_notMem (fun e he => by cases he)
  | some e =>
    refine ⟨rfl, ?_⟩
    rintro x hx
    cases hx
    exact le_rfl

end DistributedStore

end Suprime
