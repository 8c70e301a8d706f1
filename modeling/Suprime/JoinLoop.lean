import Suprime.Dict

namespace Suprime
set_option autoImplicit true

/-- A merge loop over the pairs of a dict that joins each value into what one key shows and sets
its flag when this changes. -/
structure JoinLoop (step : S × Bool → κ × α → S × Bool) (view : S → κ → β) (join : β → α → β) :
    Prop where
  view_self : ∀ acc p, view (step acc p).1 p.1 = join (view acc.1 p.1) p.2
  view_ne : ∀ acc p k, k ≠ p.1 → view (step acc p).1 k = view acc.1 k
  flag : ∀ acc p, (step acc p).2 = true ↔
    acc.2 = true ∨ join (view acc.1 p.1) p.2 ≠ view acc.1 p.1

section
variable {κ : Type u} {α : Type v} {β : Type w} {S : Type x}
  {step : S × Bool → κ × α → S × Bool} {view : S → κ → β} {join : β → α → β} {l : List (κ × α)}

theorem JoinLoop.view_of_not_mem (h : JoinLoop step view join) (hk : k ∉ l.map Prod.fst)
    (acc : S × Bool) : view (l.foldl step acc).1 k = view acc.1 k := by
  induction l generalizing acc with
  | nil => rfl
  | cons p l ih =>
    rw [List.map_cons, List.mem_cons, not_or] at hk
    rw [List.foldl_cons, ih hk.2, h.view_ne acc p k hk.1]

theorem JoinLoop.view_foldl [DecidableEq κ] (h : JoinLoop step view join)
    (hl : (l.map Prod.fst).Nodup) (acc : S × Bool) (k : κ) : view (l.foldl step acc).1 k =
      match l.lookup k with
      | some v => join (view acc.1 k) v
      | none => view acc.1 k := by
  induction l generalizing acc with
  | nil => rfl
  | cons p l ih =>
    obtain ⟨m, v⟩ := p
    rw [List.map_cons, List.nodup_cons] at hl
    rw [List.foldl_cons]
    by_cases hk : k = m
    · subst hk
      rw [h.view_of_not_mem hl.1, List.lookup_cons_self]
      exact h.view_self acc (k, v)
    · rw [ih hl.2, lookup_cons_ne hk, h.view_ne acc (m, v) k hk]

theorem JoinLoop.flag_foldl (h : JoinLoop step view join) (hl : (l.map Prod.fst).Nodup)
    (acc : S × Bool) : (l.foldl step acc).2 = true ↔
      acc.2 = true ∨ ∃ k, view (l.foldl step acc).1 k ≠ view acc.1 k := by
  induction l generalizing acc with
  | nil => simp
  | cons p l ih =>
    rw [List.map_cons, List.nodup_cons] at hl
    rw [List.foldl_cons, ih hl.2, h.flag, or_assoc]
    apply or_congr_right
    have hself := h.view_of_not_mem hl.1 (step acc p)
    constructor
    · rintro (hne | ⟨k, hne⟩)
      · refine ⟨p.1, ?_⟩
        rw [hself, h.view_self]
        exact hne
      · by_cases hk : k = p.1
        · rw [hk, hself] at hne
          exact absurd rfl hne
        · rw [h.view_ne acc p k hk] at hne
          exact ⟨k, hne⟩
    · rintro ⟨k, hne⟩
      by_cases hk : k = p.1
      · rw [hk, hself, h.view_self] at hne
        exact .inl hne
      · rw [← h.view_ne acc p k hk] at hne
        exact .inr ⟨k, hne⟩

theorem JoinLoop.flag_again [DecidableEq κ] (h : JoinLoop step view join)
    (hl : (l.map Prod.fst).Nodup) (hidem : ∀ b v, join (join b v) v = join b v)
    (acc : S × Bool) : (l.foldl step ((l.foldl step acc).1, false)).2 = false := by
  rw [← Bool.not_eq_true, h.flag_foldl hl]
  rintro (hfalse | ⟨k, hne⟩)
  · cases hfalse
  · apply hne
    rw [h.view_foldl hl]
    dsimp only
    rw [h.view_foldl hl acc k]
    cases l.lookup k with
    | none => rfl
    | some v => exact hidem _ _

end

end Suprime
