import Mathlib.Data.List.Nodup
import Mathlib.Data.List.Induction

namespace Suprime
set_option autoImplicit true

/-- The kept values that a new one does not replace, `none` when one of them covers it. -/
def survivors (covers replaces : β → β → Bool) (p : β) : List β → Option (List β)
  | [] => some []
  | k :: kept =>
    if covers p k then none
    else if replaces p k then survivors covers replaces p kept
    else (survivors covers replaces p kept).map (k :: ·)

/-- One turn of a one-pass filter for maximal values. -/
def keepMaximal (covers replaces : β → β → Bool) (kept : List β) (p : β) : List β :=
  match survivors covers replaces p kept with
  | none => kept
  | some l => l ++ [p]

theorem survivors_eq (covers replaces : β → β → Bool) (p : β) (kept : List β) :
    survivors covers replaces p kept =
      if kept.any (covers p) then none else some (kept.filter (fun k => !replaces p k)) := by
  induction kept with
  | nil => rfl
  | cons k kept ih =>
    rw [survivors, List.any_cons, List.filter_cons, ih]
    cases covers p k with
    | true => rfl
    | false =>
      rw [Bool.false_or, if_neg Bool.false_ne_true]
      cases replaces p k with
      | true => rfl
      | false =>
        cases kept.any (covers p) <;> rfl

/-- The maximal values of a set. -/
structure Maxima (lt : β → β → Prop) (A : β → Prop) (kept : List β) : Prop where
  mem : ∀ q ∈ kept, A q
  antichain : ∀ q ∈ kept, ∀ r ∈ kept, ¬ lt q r
  cover : ∀ p, A p → ∃ q ∈ kept, p = q ∨ lt p q

/-- A strict order on a set of values that the two tests of the filter decide, as far as the first
one may also be true of a value and itself. -/
structure Selects (lt : β → β → Prop) (S : β → Prop) (covers replaces : β → β → Bool) : Prop where
  irrefl : ∀ p, S p → ¬ lt p p
  trans : ∀ p q r, S p → S q → S r → lt p q → lt q r → lt p r
  covers_of_lt : ∀ p k, S p → S k → lt p k → covers p k = true
  of_covers : ∀ p k, S p → S k → covers p k = true → p = k ∨ lt p k
  replaces_iff : ∀ p k, S p → S k → (replaces p k = true ↔ lt k p)

section
variable {lt : β → β → Prop} {S A B : β → Prop} {covers replaces : β → β → Bool}

theorem Selects.cover_trans (h : Selects lt S covers replaces) (hp : S p) (hq : S q) (hr : S r)
    (hpq : p = q ∨ lt p q) (hqr : q = r ∨ lt q r) : p = r ∨ lt p r := by
  rcases hpq with rfl | hpq
  · exact hqr
  · rcases hqr with rfl | hqr
    · exact .inr hpq
    · exact .inr (h.trans p q r hp hq hr hpq hqr)

theorem Maxima.mem_iff (h : Maxima lt A kept) (hs : Selects lt S covers replaces)
    (hA : ∀ p, A p → S p) : p ∈ kept ↔ A p ∧ ∀ q, A q → ¬ lt p q := by
  constructor
  · intro hp
    refine ⟨h.mem p hp, fun q hq hlt => ?_⟩
    obtain ⟨r, hr, hqr⟩ := h.cover q hq
    have hAr := h.mem r hr
    have hAp := h.mem p hp
    rcases hs.cover_trans (hA p hAp) (hA q hq) (hA r hAr) (.inr hlt) hqr with rfl | hpr
    · rcases hqr with rfl | hqr
      · exact hs.irrefl _ (hA _ hq) hlt
      · exact hs.irrefl _ (hA _ hAp) (hs.trans _ _ _ (hA _ hAp) (hA _ hq) (hA _ hAp) hlt hqr)
    · exact h.antichain p hp r hr hpr
  · rintro ⟨hp, hmax⟩
    obtain ⟨q, hq, rfl | hlt⟩ := h.cover p hp
    · exact hq
    · exact absurd hlt (hmax q (h.mem q hq))

theorem Maxima.nil : Maxima lt (fun _ => False) [] where
  mem _ h := by cases h
  antichain _ h := by cases h
  cover _ h := h.elim

theorem Maxima.keep (h : Maxima lt A kept) (hs : Selects lt S covers replaces)
    (hA : ∀ p, A p → S p) (hp : S p) :
    Maxima lt (fun q => A q ∨ q = p) (keepMaximal covers replaces kept p) := by
  have hS : ∀ k ∈ kept, S k := fun k hk => hA k (h.mem k hk)
  rw [keepMaximal, survivors_eq]
  by_cases hany : kept.any (covers p) = true
  · rw [if_pos hany]
    obtain ⟨k, hk, hcov⟩ := List.any_eq_true.1 hany
    refine ⟨fun q hq => .inl (h.mem q hq), h.antichain, ?_⟩
    rintro q (hq | rfl)
    · exact h.cover q hq
    · exact ⟨k, hk, hs.of_covers q k hp (hS k hk) hcov⟩
  · rw [if_neg hany]
    have hnot : ∀ k ∈ kept, ¬ lt p k := by
      intro k hk hlt
      exact hany (List.any_eq_true.2 ⟨k, hk, hs.covers_of_lt p k hp (hS k hk) hlt⟩)
    have hmem : ∀ k, k ∈ kept.filter (fun k => !replaces p k) ↔ k ∈ kept ∧ ¬ lt k p := by
      intro k
      rw [List.mem_filter]
      apply and_congr_right
      intro hk
      rw [← hs.replaces_iff p k hp (hS k hk), Bool.not_eq_true', Bool.not_eq_true]
    refine ⟨?_, ?_, ?_⟩
    · intro q hq
      rcases List.mem_append.1 hq with hq | hq
      · exact .inl (h.mem q ((hmem q).1 hq).1)
      · exact .inr (List.mem_singleton.1 hq)
    · intro q hq r hr hlt
      rcases List.mem_append.1 hq with hq | hq
      · have hqk := (hmem q).1 hq
        rcases List.mem_append.1 hr with hr | hr
        · exact h.antichain q hqk.1 r ((hmem r).1 hr).1 hlt
        · rw [List.mem_singleton.1 hr] at hlt
          exact hqk.2 hlt
      · rw [List.mem_singleton.1 hq] at hlt
        rcases List.mem_append.1 hr with hr | hr
        · exact hnot r ((hmem r).1 hr).1 hlt
        · rw [List.mem_singleton.1 hr] at hlt
          exact hs.irrefl p hp hlt
    · rintro x (hx | rfl)
      · obtain ⟨q, hq, hcov⟩ := h.cover x hx
        by_cases hlt : lt q p
        · have hxp := hs.cover_trans (hA x hx) (hS q hq) hp hcov (.inr hlt)
          exact ⟨p, List.mem_append_right _ List.mem_cons_self, hxp⟩
        · exact ⟨q, List.mem_append_left _ ((hmem q).2 ⟨hq, hlt⟩), hcov⟩
      · exact ⟨x, List.mem_append_right _ List.mem_cons_self, .inl rfl⟩

theorem Maxima.congr (h : Maxima lt A kept) (hAB : ∀ p, A p ↔ B p) : Maxima lt B kept where
  mem q hq := (hAB q).1 (h.mem q hq)
  antichain := h.antichain
  cover p hp := h.cover p ((hAB p).2 hp)

theorem Maxima.of_foldl (hs : Selects lt S covers replaces) (l : List β) (hl : ∀ p ∈ l, S p) :
    Maxima lt (· ∈ l) (l.foldl (keepMaximal covers replaces) []) := by
  induction l using List.reverseRecOn with
  | nil => exact Maxima.nil.congr (fun p => by simp)
  | append_singleton l p ih =>
    rw [List.foldl_append, List.foldl_cons, List.foldl_nil]
    have hl' : ∀ q ∈ l, S q := fun q hq => hl q (List.mem_append_left _ hq)
    have hp : S p := hl p (List.mem_append_right _ List.mem_cons_self)
    exact ((ih hl').keep hs hl' hp).congr (fun q => by simp)

theorem Maxima.merge (hs : Selects lt S covers replaces) (hA : ∀ p, A p → S p)
    (hB : ∀ p, B p → S p) (h : Maxima lt A a) (h' : Maxima lt B b) :
    Maxima lt (fun p => A p ∨ B p) ((a ++ b).foldl (keepMaximal covers replaces) []) := by
  have hmem : ∀ p ∈ a ++ b, A p ∨ B p := by
    intro p hp
    rcases List.mem_append.1 hp with hp | hp
    · exact .inl (h.mem p hp)
    · exact .inr (h'.mem p hp)
  have hAB : ∀ p, A p ∨ B p → S p := fun p hp => hp.elim (hA p) (hB p)
  have hfold := Maxima.of_foldl hs (a ++ b) (fun p hp => hAB p (hmem p hp))
  refine ⟨fun q hq => hmem q (hfold.mem q hq), hfold.antichain, ?_⟩
  have hcover : ∀ p, A p ∨ B p → ∃ q ∈ a ++ b, p = q ∨ lt p q := by
    rintro p (hp | hp)
    · obtain ⟨q, hq, hcov⟩ := h.cover p hp
      exact ⟨q, List.mem_append_left _ hq, hcov⟩
    · obtain ⟨q, hq, hcov⟩ := h'.cover p hp
      exact ⟨q, List.mem_append_right _ hq, hcov⟩
  intro p hp
  obtain ⟨q, hq, hpq⟩ := hcover p hp
  obtain ⟨r, hr, hqr⟩ := hfold.cover q hq
  have hqS := hAB q (hmem q hq)
  have hrS := hAB r (hmem r (hfold.mem r hr))
  exact ⟨r, hr, hs.cover_trans (hAB p hp) hqS hrS hpq hqr⟩

theorem mem_of_mem_keepMaximal (hq : q ∈ keepMaximal covers replaces kept p) :
    q ∈ kept ∨ q = p := by
  rw [keepMaximal, survivors_eq] at hq
  by_cases hany : kept.any (covers p) = true
  · rw [if_pos hany] at hq
    exact .inl hq
  · rw [if_neg hany] at hq
    rcases List.mem_append.1 hq with hq | hq
    · exact .inl (List.mem_filter.1 hq).1
    · exact .inr (List.mem_singleton.1 hq)

theorem mem_of_mem_foldl_keepMaximal {l : List β}
    (hq : q ∈ l.foldl (keepMaximal covers replaces) []) : q ∈ l := by
  induction l using List.reverseRecOn with
  | nil => exact hq
  | append_singleton l p ih =>
    rw [List.foldl_append, List.foldl_cons, List.foldl_nil] at hq
    rcases mem_of_mem_keepMaximal hq with hq | rfl
    · exact List.mem_append_left _ (ih hq)
    · exact List.mem_append_right _ List.mem_cons_self

theorem nodup_keepMaximal (h : kept.Nodup) (hp : covers p p = true) :
    (keepMaximal covers replaces kept p).Nodup := by
  rw [keepMaximal, survivors_eq]
  by_cases hany : kept.any (covers p) = true
  · rw [if_pos hany]
    exact h
  · rw [if_neg hany]
    apply List.Nodup.append (h.filter _) (List.nodup_singleton p)
    intro q hq hq'
    rw [List.mem_singleton] at hq'
    subst hq'
    exact hany (List.any_eq_true.2 ⟨q, (List.mem_filter.1 hq).1, hp⟩)

theorem nodup_foldl_keepMaximal (l : List β) (hl : ∀ p ∈ l, covers p p = true) :
    (l.foldl (keepMaximal covers replaces) []).Nodup := by
  induction l using List.reverseRecOn with
  | nil => exact List.nodup_nil
  | append_singleton l p ih =>
    rw [List.foldl_append, List.foldl_cons, List.foldl_nil]
    apply nodup_keepMaximal
    · exact ih (fun q hq => hl q (List.mem_append_left _ hq))
    · exact hl p (List.mem_append_right _ List.mem_cons_self)

theorem keepMaximal_ne_nil (kept : List β) (p : β) : keepMaximal covers replaces kept p ≠ [] := by
  rw [keepMaximal, survivors_eq]
  by_cases hany : kept.any (covers p) = true
  · rw [if_pos hany]
    rintro rfl
    cases hany
  · rw [if_neg hany]
    exact List.append_ne_nil_of_right_ne_nil _ (List.cons_ne_nil _ _)

theorem foldl_keepMaximal_eq_nil (l : List β) :
    l.foldl (keepMaximal covers replaces) [] = [] ↔ l = [] := by
  induction l using List.reverseRecOn with
  | nil => exact Iff.rfl
  | append_singleton l p ih =>
    rw [List.foldl_append, List.foldl_cons, List.foldl_nil]
    exact iff_of_false (keepMaximal_ne_nil _ p) (List.append_ne_nil_of_right_ne_nil _
      (List.cons_ne_nil _ _))

end

end Suprime
