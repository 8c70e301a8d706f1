import Mathlib.Data.Set.Basic
import Mathlib.Logic.Function.Basic

namespace Suprime
set_option autoImplicit true

/-- A table, the indexes over its values and the entries that are kept for them. -/
@[ext] structure IndexedTable (I X K V E : Type) where
  value : K → Option V
  index : I → Option (V → X)
  entries : Set E

namespace IndexedTable

variable {I X K V E : Type} (enc : I → X → K → E) (skipped : I → K → Prop)
  (t : IndexedTable I X K V E)

/-- Some index gives the entry to the key when its value is `v`. -/
def EntryFor (k : K) (v : V) (e : E) : Prop :=
  ∃ i f, t.index i = some f ∧ e = enc i (f v) k

/-- Some index gives the entry to the key. -/
def EntryOf (k : K) (e : E) : Prop :=
  ∃ v, t.value k = some v ∧ t.EntryFor enc k v e

/-- Some index that did not skip the key gives the entry to it. -/
def Due (k : K) (e : E) : Prop :=
  ∃ i f v, t.index i = some f ∧ t.value k = some v ∧ ¬ skipped i k ∧ e = enc i (f v) k

/-- The entries are exactly those that the indexes give to the keys they did not skip. -/
def Indexed : Prop := ∀ e, e ∈ t.entries ↔ ∃ k, t.Due enc skipped k e

/-- A key gets a value: its old entries go and its new ones come. -/
def write [DecidableEq K] (k : K) (v : V) : IndexedTable I X K V E where
  value := Function.update t.value k (some v)
  index := t.index
  entries := {e | t.EntryFor enc k v e ∨ e ∈ t.entries ∧ ¬ t.EntryOf enc k e}

open Classical in
/-- Keys go with their entries. -/
noncomputable def remove (ks : Set K) : IndexedTable I X K V E where
  value k := if k ∈ ks then none else t.value k
  index := t.index
  entries := {e | e ∈ t.entries ∧ ∀ k ∈ ks, ¬ t.EntryOf enc k e}

/-- An index is made and filled from some of the keys. -/
def create [DecidableEq I] (i : I) (f : V → X) (ks : Set K) : IndexedTable I X K V E where
  value := t.value
  index := Function.update t.index i (some f)
  entries := {e | e ∈ t.entries ∨ ∃ k ∈ ks, ∃ v, t.value k = some v ∧ e = enc i (f v) k}

/-- What is skipped after an index was filled: an index that is new skips all other keys. -/
def skippedBy (i : I) (ks : Set K) (i' : I) (k : K) : Prop :=
  (i' = i ∧ k ∉ ks ∧ (t.index i = none ∨ skipped i k)) ∨ (i' ≠ i ∧ skipped i' k)

variable {enc skipped t}

theorem value_write [DecidableEq K] (k' : K) :
    (t.write enc k v).value k' = if k' = k then some v else t.value k' :=
  Function.update_apply t.value k (some v) k'

theorem value_of_remove (h : (t.remove enc ks).value k = some v) : t.value k = some v := by
  simp only [remove] at h
  split at h
  · cases h
  · exact h

theorem Due.entryOf (h : t.Due enc skipped k e) : t.EntryOf enc k e := by
  obtain ⟨i, f, v, hi, hv, -, he⟩ := h
  exact ⟨v, hv, i, f, hi, he⟩

theorem due_write_ne [DecidableEq K] (h : k' ≠ k) :
    (t.write enc k v).Due enc (fun i k' => k' ≠ k ∧ skipped i k') k' e ↔
      t.Due enc skipped k' e := by
  simp only [Due, write, Function.update_of_ne h, ne_eq, h, not_false_eq_true, true_and]

theorem due_write_self [DecidableEq K] :
    (t.write enc k v).Due enc (fun i k' => k' ≠ k ∧ skipped i k') k e ↔ t.EntryFor enc k v e := by
  simp only [Due, EntryFor, write, Function.update_self, ne_eq, not_true_eq_false, false_and,
    not_false_eq_true, true_and, Option.some.injEq]
  constructor
  · rintro ⟨i, f, v', hi, rfl, he⟩
    exact ⟨i, f, hi, he⟩
  · rintro ⟨i, f, hi, he⟩
    exact ⟨i, f, v, hi, rfl, he⟩

/-- A write keeps the entries exact if and only if it takes no entry of another key away, unless
that entry is one of its own new ones. -/
theorem Indexed.write_iff [DecidableEq K] (h : t.Indexed enc skipped) :
    (t.write enc k v).Indexed enc (fun i k' => k' ≠ k ∧ skipped i k') ↔
      ∀ e k', t.EntryOf enc k e → k' ≠ k → t.Due enc skipped k' e → t.EntryFor enc k v e := by
  constructor
  · intro hwrite e k' hold hne hdue
    have hmem := (hwrite e).2 ⟨k', (due_write_ne hne).2 hdue⟩
    cases hmem with
    | inl hnew => exact hnew
    | inr hkept => exact absurd hold hkept.2
  · intro hclear e
    constructor
    · intro hmem
      cases hmem with
      | inl hnew => exact ⟨k, due_write_self.2 hnew⟩
      | inr hkept =>
        obtain ⟨k', hdue⟩ := (h e).1 hkept.1
        have hne : k' ≠ k := by
          intro heq
          rw [heq] at hdue
          exact hkept.2 hdue.entryOf
        exact ⟨k', (due_write_ne hne).2 hdue⟩
    · intro hdue
      obtain ⟨k', hdue⟩ := hdue
      by_cases hk : k' = k
      · rw [hk] at hdue
        exact .inl (due_write_self.1 hdue)
      · have hdue := (due_write_ne hk).1 hdue
        by_cases hold : t.EntryOf enc k e
        · exact .inl (hclear e k' hold hk hdue)
        · exact .inr ⟨(h e).2 ⟨k', hdue⟩, hold⟩

theorem due_remove (ks : Set K) :
    (t.remove enc ks).Due enc skipped k e ↔ k ∉ ks ∧ t.Due enc skipped k e := by
  by_cases hk : k ∈ ks
  · refine iff_of_false ?_ (fun h => h.1 hk)
    rintro ⟨i, f, v, -, hv, -⟩
    simp only [remove, if_pos hk] at hv
    cases hv
  · simp only [Due, remove, hk, if_false, not_false_eq_true, true_and]

/-- Removing keys keeps the entries exact if and only if it takes no entry of a key that stays. -/
theorem Indexed.remove_iff (h : t.Indexed enc skipped) (ks : Set K) :
    (t.remove enc ks).Indexed enc skipped ↔
      ∀ k ∈ ks, ∀ e k', t.EntryOf enc k e → k' ∉ ks → ¬ t.Due enc skipped k' e := by
  constructor
  · intro hremove k hk e k' hold hk' hdue
    have hmem := (hremove e).2 ⟨k', (due_remove ks).2 ⟨hk', hdue⟩⟩
    exact hmem.2 k hk hold
  · intro hclear e
    constructor
    · intro hmem
      obtain ⟨k', hdue⟩ := (h e).1 hmem.1
      have hk' : k' ∉ ks := fun hk' => hmem.2 k' hk' hdue.entryOf
      exact ⟨k', (due_remove ks).2 ⟨hk', hdue⟩⟩
    · intro hdue
      obtain ⟨k', hdue⟩ := hdue
      obtain ⟨hk', hdue⟩ := (due_remove ks).1 hdue
      exact ⟨(h e).2 ⟨k', hdue⟩, fun k hk hold => hclear k hk e k' hold hk' hdue⟩

/-- Filling an index keeps the entries exact when it gives what an index of its name gave. -/
theorem Indexed.create [DecidableEq I] (h : t.Indexed enc skipped) (ks : Set K)
    (hsame : ∀ f' k v, t.index i = some f' → t.value k = some v → ¬ skipped i k → f v = f' v) :
    (t.create enc i f ks).Indexed enc (t.skippedBy skipped i ks) := by
  intro e
  constructor
  · intro hmem
    cases hmem with
    | inl hmem =>
      obtain ⟨k, i', f', v, hi, hv, hskip, he⟩ := (h e).1 hmem
      by_cases hii : i' = i
      · rw [hii] at hi hskip he
        refine ⟨k, i, f, v, Function.update_self .., hv, ?_, ?_⟩
        · rintro (⟨-, -, hnone | hskip'⟩ | ⟨hne, -⟩)
          · rw [hnone] at hi
            cases hi
          · exact hskip hskip'
          · exact hne rfl
        · rw [hsame f' k v hi hv hskip, he]
      · refine ⟨k, i', f', v, ?_, hv, ?_, he⟩
        · exact (Function.update_of_ne hii _ _).trans hi
        · rintro (⟨heq, -⟩ | ⟨-, hskip'⟩)
          · exact hii heq
          · exact hskip hskip'
    | inr hnew =>
      obtain ⟨k, hk, v, hv, he⟩ := hnew
      refine ⟨k, i, f, v, Function.update_self .., hv, ?_, he⟩
      rintro (⟨-, hno, -⟩ | ⟨hne, -⟩)
      · exact hno hk
      · exact hne rfl
  · rintro ⟨k, i', f', v, hi, hv, hskip, he⟩
    by_cases hii : i' = i
    · rw [hii] at hi hskip he
      have hi : Function.update t.index i (some f) i = some f' := hi
      rw [Function.update_self] at hi
      have hf : f = f' := Option.some.inj hi
      rw [← hf] at he
      by_cases hk : k ∈ ks
      · exact .inr ⟨k, hk, v, hv, he⟩
      · left
        cases hold : t.index i with
        | none => exact absurd (.inl ⟨rfl, hk, .inl hold⟩) hskip
        | some f₀ =>
          have hskip' : ¬ skipped i k := fun hs => hskip (.inl ⟨rfl, hk, .inr hs⟩)
          rw [hsame f₀ k v hold hv hskip'] at he
          exact (h e).2 ⟨k, i, f₀, v, hold, hv, hskip', he⟩
    · have hi' : t.index i' = some f' := (Function.update_of_ne hii _ _).symm.trans hi
      have hskip' : ¬ skipped i' k := fun hs => hskip (.inr ⟨hii, hs⟩)
      exact .inl ((h e).2 ⟨k, i', f', v, hi', hv, hskip', he⟩)

/-- The entries tell which keys have a value of index key `x` exactly where no entry of another key
reads like one for them and no key that was skipped has such a value. -/
theorem Indexed.mem_entries_iff (h : t.Indexed enc skipped) (hi : t.index i = some f) (x : X)
    (k : K) :
    (enc i x k ∈ t.entries ↔ ∃ v, t.value k = some v ∧ f v = x) ↔
      (∀ k', t.Due enc skipped k' (enc i x k) → ∃ v, t.value k = some v ∧ f v = x) ∧
        (skipped i k → (∃ v, t.value k = some v ∧ f v = x) →
          ∃ k', t.Due enc skipped k' (enc i x k)) := by
  constructor
  · intro hmem
    constructor
    · intro k' hdue
      exact hmem.1 ((h _).2 ⟨k', hdue⟩)
    · intro _ hv
      exact (h _).1 (hmem.2 hv)
  · rintro ⟨hread, hmiss⟩
    constructor
    · intro hmem
      obtain ⟨k', hdue⟩ := (h _).1 hmem
      exact hread k' hdue
    · intro hv
      rw [h]
      by_cases hskip : skipped i k
      · exact hmiss hskip hv
      · obtain ⟨v, hv, hx⟩ := hv
        exact ⟨k, i, f, v, hi, hv, hskip, by rw [hx]⟩

end IndexedTable

end Suprime
