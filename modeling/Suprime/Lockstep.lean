import Mathlib.Data.List.Forall2
import Mathlib.Data.List.Sort
import Suprime.Dict

namespace Suprime
set_option autoImplicit true

theorem rel_cases {P : β → γ → Prop} {o : Option β} {o' : Option γ} (h : Option.Rel P o o') :
    (o = none ∧ o' = none) ∨ ∃ x y, o = some x ∧ o' = some y ∧ P x y := by
  cases h with
  | none => exact .inl ⟨rfl, rfl⟩
  | some hxy => exact .inr ⟨_, _, rfl, rfl, hxy⟩

theorem rel_bind {β γ δ ε : Type u} {P : β → γ → Prop} {Q : δ → ε → Prop} {o : Option β}
    {o' : Option γ} {f : β → Option δ} {g : γ → Option ε} (h : Option.Rel P o o')
    (hfg : ∀ x y, P x y → Option.Rel Q (f x) (g y)) : Option.Rel Q (o >>= f) (o' >>= g) := by
  cases h with
  | none => exact .none
  | some hxy => exact hfg _ _ hxy

theorem rel_getElem? {P : β → γ → Prop} {l : List β} {l' : List γ} (h : List.Forall₂ P l l')
    (i : ℕ) : Option.Rel P l[i]? l'[i]? := by
  induction h generalizing i with
  | nil => exact .none
  | cons hx _ ih =>
    cases i with
    | zero => exact .some hx
    | succ i => exact ih i

theorem rel_update [DecidableEq ι] {P : β → γ → Prop} {f : ι → β} {g : ι → γ}
    (h : ∀ i, P (f i) (g i)) (i : ι) (hxy : P x y) (j : ι) :
    P (Function.update f i x j) (Function.update g i y j) := by
  by_cases hj : j = i
  · subst hj
    rw [Function.update_self, Function.update_self]
    exact hxy
  · rw [Function.update_of_ne hj, Function.update_of_ne hj]
    exact h j

theorem rel_orderedInsert {P : β → γ → Prop} {r : β → β → Prop} {r' : γ → γ → Prop}
    [DecidableRel r] [DecidableRel r'] (hr : ∀ {a b c d}, P a b → P c d → (r a c ↔ r' b d))
    (hx : P x y) (h : List.Forall₂ P l l') :
    List.Forall₂ P (l.orderedInsert r x) (l'.orderedInsert r' y) := by
  induction h with
  | nil => exact .cons hx .nil
  | @cons a b l l' hab hl ih =>
    rw [List.orderedInsert, List.orderedInsert]
    by_cases hle : r x a
    · rw [if_pos hle, if_pos ((hr hx hab).1 hle)]
      exact .cons hx (.cons hab hl)
    · rw [if_neg hle, if_neg (fun hle' => hle ((hr hx hab).2 hle'))]
      exact .cons hab ih

theorem rel_insertionSort {P : β → γ → Prop} {r : β → β → Prop} {r' : γ → γ → Prop}
    [DecidableRel r] [DecidableRel r'] (hr : ∀ {a b c d}, P a b → P c d → (r a c ↔ r' b d))
    (h : List.Forall₂ P l l') : List.Forall₂ P (l.insertionSort r) (l'.insertionSort r') := by
  induction h with
  | nil => exact .nil
  | cons hx _ ih => exact rel_orderedInsert hr hx ih

theorem rel_loop {P : β → γ → Prop} {f : β → δ → β} {g : γ → δ → γ}
    (h : ∀ x y d, P x y → P (f x d) (g y d)) (l : List δ) (hx : P x y) :
    P (l.foldl f x) (l.foldl g y) := by
  have hl : List.Forall₂ Eq l l := List.forall₂_refl l
  apply List.rel_foldl _ hx hl
  rintro x y hxy d e rfl
  exact h x y d hxy

theorem rel_foldlM {β γ : Type u} {P : β → γ → Prop} {f : β → δ → Option β}
    {g : γ → δ → Option γ} {x : β} {y : γ}
    (h : ∀ x y d, P x y → Option.Rel P (f x d) (g y d)) (l : List δ) (hx : P x y) :
    Option.Rel P (l.foldlM f x) (l.foldlM g y) := by
  induction l generalizing x y with
  | nil => exact .some hx
  | cons d l ih =>
    rw [List.foldlM_cons, List.foldlM_cons]
    apply rel_bind (h x y d hx)
    intro x' y' hxy
    exact ih hxy

/-- Two dicts with the same keys in the same order and related values. -/
def Dict.Rel (P : β → γ → Prop) (d : Dict κ β) (d' : Dict κ γ) : Prop :=
  List.Forall₂ (fun p q => p.1 = q.1 ∧ P p.2 q.2) d.items d'.items

namespace Dict.Rel

variable {P : β → γ → Prop} {d : Dict κ β} {d' : Dict κ γ}

theorem empty : Dict.Rel P (.empty : Dict κ β) (.empty : Dict κ γ) := .nil

theorem get [DecidableEq κ] (h : Dict.Rel P d d') (k : κ) : Option.Rel P (d.get k) (d'.get k) := by
  have hlookup : ∀ {l : List (κ × β)} {l' : List (κ × γ)},
      List.Forall₂ (fun p q => p.1 = q.1 ∧ P p.2 q.2) l l' →
        Option.Rel P (l.lookup k) (l'.lookup k) := by
    intro l l' hl
    induction hl with
    | nil => exact .none
    | @cons p q l l' hpq _ ih =>
      obtain ⟨a, x⟩ := p
      obtain ⟨b, y⟩ := q
      obtain ⟨rfl, hxy⟩ := hpq
      by_cases hk : k = a
      · rw [hk, List.lookup_cons_self, List.lookup_cons_self]
        exact .some hxy
      · rw [lookup_cons_ne hk, lookup_cons_ne hk]
        exact ih
  exact hlookup h

theorem set [DecidableEq κ] (h : Dict.Rel P d d') (k : κ) (hv : P v w) :
    Dict.Rel P (d.set k v) (d'.set k w) := by
  have hassoc : ∀ {l : List (κ × β)} {l' : List (κ × γ)},
      List.Forall₂ (fun p q => p.1 = q.1 ∧ P p.2 q.2) l l' →
        List.Forall₂ (fun p q => p.1 = q.1 ∧ P p.2 q.2) (assocSet k v l) (assocSet k w l') := by
    intro l l' hl
    induction hl with
    | nil => exact .cons ⟨rfl, hv⟩ .nil
    | @cons p q l l' hpq hrest ih =>
      obtain ⟨a, x⟩ := p
      obtain ⟨b, y⟩ := q
      obtain ⟨rfl, hxy⟩ := hpq
      rw [assocSet, assocSet]
      by_cases hk : a = k
      · rw [if_pos hk, if_pos hk]
        exact .cons ⟨rfl, hv⟩ hrest
      · rw [if_neg hk, if_neg hk]
        exact .cons ⟨rfl, hxy⟩ ih
  exact hassoc h

theorem imp {Q : β → γ → Prop} (h : Dict.Rel P d d') (hPQ : ∀ x y, P x y → Q x y) :
    Dict.Rel Q d d' :=
  List.Forall₂.imp (fun _ _ hpq => ⟨hpq.1, hPQ _ _ hpq.2⟩) h

theorem map {Q : δ → ε → Prop} {f : β → δ} {g : γ → ε} (h : Dict.Rel P d d')
    (hfg : ∀ x y, P x y → Q (f x) (g y)) : Dict.Rel Q (d.map f) (d'.map g) := by
  rw [Dict.Rel, Dict.map, Dict.map, List.forall₂_map_left_iff, List.forall₂_map_right_iff]
  exact List.Forall₂.imp (fun p q hpq => ⟨hpq.1, hfg _ _ hpq.2⟩) h

end Dict.Rel

/-- Readings of two clocks that stand for each other: no comparison tells them apart. -/
def SameOrder [LinearOrder T] (R : T → T → Prop) : Prop :=
  ∀ {a b c d}, R a b → R c d → (a ≤ c ↔ b ≤ d)

namespace SameOrder

variable [LinearOrder T] {R : T → T → Prop}

theorem lt_iff (h : SameOrder R) (hab : R a b) (hcd : R c d) : a < c ↔ b < d := by
  rw [← not_le, ← not_le, h hcd hab]

theorem eq_iff (h : SameOrder R) (hab : R a b) (hcd : R c d) : a = c ↔ b = d := by
  rw [le_antisymm_iff, le_antisymm_iff, h hab hcd, h hcd hab]

end SameOrder

end Suprime
