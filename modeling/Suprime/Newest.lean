import Mathlib.Data.List.Induction
import Mathlib.Data.Set.Function
import Mathlib.Data.Set.Insert
import Mathlib.Order.Lattice

namespace Suprime
set_option autoImplicit true

variable {β : Type u} {V : Type v} [LinearOrder V]

/-- The element kept by a register that only lets strictly greater versions in. -/
def newer (ver : β → V) : Option β → β → β
  | none, e => e
  | some c, e => if ver c < ver e then e else c

/-- The content of a register is an element of greatest version among the elements of `S`,
and the register is empty only when `S` is. -/
def IsNewest (ver : β → V) (S : Set β) : Option β → Prop
  | none => S = ∅
  | some e => e ∈ S ∧ ∀ x ∈ S, ver x ≤ ver e

theorem le_newer (ver : β → V) (o : Option β) (e : β) : ver e ≤ ver (newer ver o e) := by
  cases o with
  | none => exact le_rfl
  | some c =>
    by_cases h : ver c < ver e
    · simp only [newer, if_pos h, le_rfl]
    · simpa only [newer, if_neg h] using not_lt.1 h

theorem le_newer_of_mem (ver : β → V) {o : Option β} {c : β} (hc : o = some c) (e : β) :
    ver c ≤ ver (newer ver o e) := by
  subst hc
  by_cases h : ver c < ver e
  · simpa only [newer, if_pos h] using h.le
  · simp only [newer, if_neg h, le_rfl]

theorem newer_eq_or (ver : β → V) (o : Option β) (e : β) :
    newer ver o e = e ∨ o = some (newer ver o e) := by
  cases o with
  | none => exact .inl rfl
  | some c =>
    by_cases h : ver c < ver e
    · exact .inl (if_pos h)
    · exact .inr (congrArg some (if_neg h).symm)

theorem IsNewest.congr {ver : β → V} {S S' : Set β} {o : Option β} (h : IsNewest ver S o)
    (hS : ∀ x, x ∈ S' ↔ x ∈ S) : IsNewest ver S' o := by
  rw [Set.ext hS]
  exact h

theorem IsNewest.mem {ver : β → V} {S : Set β} {o : Option β} {e : β} (h : IsNewest ver S o)
    (he : o = some e) : e ∈ S := by
  subst he
  exact h.1

theorem IsNewest.le {ver : β → V} {S : Set β} {o : Option β} {x : β} (h : IsNewest ver S o)
    (hx : x ∈ S) : ∃ e, o = some e ∧ ver x ≤ ver e := by
  cases o with
  | none => rw [show S = ∅ from h] at hx; cases hx
  | some e => exact ⟨e, rfl, h.2 x hx⟩

theorem IsNewest.overwrite {ver : β → V} {S : Set β} {o : Option β} {e : β}
    (h : IsNewest ver S o) (he : ∀ c, o = some c → ver c ≤ ver e) :
    IsNewest ver (insert e S) (some e) := by
  refine ⟨Set.mem_insert _ _, ?_⟩
  rintro x (rfl | hx)
  · exact le_rfl
  · obtain ⟨c, hc, hle⟩ := h.le hx
    exact hle.trans (he c hc)

theorem IsNewest.merge {ver : β → V} {S : Set β} {o : Option β} (h : IsNewest ver S o) (e : β) :
    IsNewest ver (insert e S) (some (newer ver o e)) := by
  refine ⟨?_, ?_⟩
  · rcases newer_eq_or ver o e with he | he
    · rw [he]
      exact Set.mem_insert _ _
    · exact Set.mem_insert_of_mem _ (h.mem he)
  · rintro x (rfl | hx)
    · exact le_newer ver o x
    · obtain ⟨c, hc, hle⟩ := h.le hx
      exact hle.trans (le_newer_of_mem ver hc e)

theorem IsNewest.unique {ver : β → V} {S : Set β} {o o' : Option β} (h : IsNewest ver S o)
    (h' : IsNewest ver S o') (hinj : Set.InjOn ver S) : o = o' := by
  cases o with
  | none =>
    cases o' with
    | none => rfl
    | some e' =>
      have he := h'.1
      rw [show S = ∅ from h] at he
      cases he
  | some e =>
    obtain ⟨e', rfl, hle⟩ := h'.le h.1
    have hge := h.2 e' h'.1
    rw [hinj h.1 h'.1 (le_antisymm hle hge)]

/-- An element of a list with the greatest version, and the first one of them. -/
def FirstNewest (ver : β → V) (l : List β) (b : β) : Prop :=
  ∃ pre post, l = pre ++ b :: post ∧ (∀ x ∈ pre, ver x < ver b) ∧ ∀ x ∈ post, ver x ≤ ver b

theorem foldl_newer_of_le {ver : β → V} {l : List β} {b : β} (h : ∀ x ∈ l, ver x ≤ ver b) :
    l.foldl (fun o e => some (newer ver o e)) (some b) = some b := by
  induction l with
  | nil => rfl
  | cons x l ih =>
    have hx : newer ver (some b) x = b := if_neg (not_lt.2 (h x List.mem_cons_self))
    rw [List.foldl_cons, hx]
    exact ih (fun y hy => h y (List.mem_cons_of_mem _ hy))

theorem foldl_newer_concat (ver : β → V) (l : List β) (e : β) (o : Option β) :
    (l ++ [e]).foldl (fun o e => some (newer ver o e)) o =
      some (newer ver (l.foldl (fun o e => some (newer ver o e)) o) e) :=
  List.foldl_append

theorem FirstNewest.mem {ver : β → V} {l : List β} {b : β} (h : FirstNewest ver l b) : b ∈ l := by
  obtain ⟨pre, post, rfl, -⟩ := h
  exact List.mem_append_right _ List.mem_cons_self

theorem FirstNewest.le {ver : β → V} {l : List β} {b x : β} (h : FirstNewest ver l b)
    (hx : x ∈ l) : ver x ≤ ver b := by
  obtain ⟨pre, post, rfl, hpre, hpost⟩ := h
  rcases List.mem_append.1 hx with hx | hx
  · exact (hpre x hx).le
  · cases List.mem_cons.1 hx with
    | inl hx => exact hx ▸ le_rfl
    | inr hx => exact hpost x hx

theorem firstNewest_of_foldl {ver : β → V} {l : List β} {b : β}
    (h : l.foldl (fun o e => some (newer ver o e)) none = some b) : FirstNewest ver l b := by
  induction l using List.reverseRecOn generalizing b with
  | nil => cases h
  | append_singleton l e ih =>
    rw [foldl_newer_concat, Option.some.injEq] at h
    cases ho : l.foldl (fun o e => some (newer ver o e)) none with
    | none =>
      cases l using List.reverseRecOn with
      | nil => exact ⟨[], [], by rw [← h]; rfl, nofun, nofun⟩
      | append_singleton l x =>
        rw [foldl_newer_concat] at ho
        cases ho
    | some c =>
      rw [ho] at h
      have hc := ih ho
      by_cases hlt : ver c < ver e
      · have hb : e = b := (if_pos hlt).symm.trans h
        subst hb
        exact ⟨l, [], rfl, fun x hx => (hc.le hx).trans_lt hlt, nofun⟩
      · have hb : c = b := (if_neg hlt).symm.trans h
        subst hb
        obtain ⟨pre, post, rfl, hpre, hpost⟩ := hc
        refine ⟨pre, post ++ [e], by rw [List.append_assoc, List.cons_append], hpre, ?_⟩
        intro x hx
        cases List.mem_append.1 hx with
        | inl hx => exact hpost x hx
        | inr hx => exact List.mem_singleton.1 hx ▸ not_lt.1 hlt

theorem foldl_newer_iff {ver : β → V} {l : List β} {b : β} :
    l.foldl (fun o e => some (newer ver o e)) none = some b ↔ FirstNewest ver l b := by
  refine ⟨firstNewest_of_foldl, ?_⟩
  rintro ⟨pre, post, rfl, hpre, hpost⟩
  have hb : newer ver (pre.foldl (fun o e => some (newer ver o e)) none) b = b := by
    cases ho : pre.foldl (fun o e => some (newer ver o e)) none with
    | none => rfl
    | some c => exact if_pos (hpre c (firstNewest_of_foldl ho).mem)
  rw [List.foldl_append, List.foldl_cons, hb]
  exact foldl_newer_of_le hpost

end Suprime
