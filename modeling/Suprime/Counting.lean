import Mathlib.Data.List.Dedup
import Mathlib.Data.List.Induction

namespace Suprime
set_option autoImplicit true

variable {β : Type}

/-- Whether the list has an element with some property at a position. -/
def holdsAt (l : List β) (P : β → Bool) (i : ℕ) : Bool := l[i]?.any P

theorem holdsAt_iff {l : List β} {P : β → Bool} :
    holdsAt l P i = true ↔ ∃ x, l[i]? = some x ∧ P x = true := by
  unfold holdsAt
  cases l[i]? <;> simp

theorem holdsAt_append {l : List β} {P : β → Bool} (l' : List β) (h : holdsAt l P i = true) :
    holdsAt (l ++ l') P i = true := by
  obtain ⟨x, hx, hP⟩ := holdsAt_iff.1 h
  obtain ⟨hi, _⟩ := List.getElem?_eq_some_iff.1 hx
  rw [holdsAt_iff]
  exact ⟨x, by rw [List.getElem?_append_left hi, hx], hP⟩

theorem length_le_countP {ids : List ℕ} {l : List β} {P : β → Bool} (hnd : ids.Nodup)
    (h : ∀ i ∈ ids, holdsAt l P i = true) : ids.length ≤ l.countP P := by
  induction l using List.reverseRecOn generalizing ids with
  | nil =>
    cases ids with
    | nil => exact Nat.le_refl _
    | cons i ids =>
      have hi := h i List.mem_cons_self
      simp [holdsAt] at hi
  | append_singleton l x ih =>
    have hinside : ∀ i, i ≠ l.length → holdsAt (l ++ [x]) P i = true → holdsAt l P i = true := by
      intro i hne hi
      obtain ⟨y, hy, hP⟩ := holdsAt_iff.1 hi
      obtain ⟨hlt, _⟩ := List.getElem?_eq_some_iff.1 hy
      rw [List.length_append, List.length_singleton] at hlt
      rw [List.getElem?_append_left (by omega)] at hy
      exact holdsAt_iff.2 ⟨y, hy, hP⟩
    rw [List.countP_append]
    by_cases hm : l.length ∈ ids
    · have hlast := h _ hm
      have hx : P x = true := by simpa [holdsAt] using hlast
      have hrest := ih (hnd.erase l.length) (fun i hi => by
        obtain ⟨hne, hi⟩ := (List.Nodup.mem_erase_iff hnd).1 hi
        exact hinside i hne (h i hi))
      rw [List.length_erase_of_mem hm] at hrest
      have hone : [x].countP P = 1 := by simp [hx]
      have hpos := List.length_pos_of_mem hm
      omega
    · have hrest := ih hnd (fun i hi => hinside i (fun he => hm (he ▸ hi)) (h i hi))
      omega

theorem countP_le_set {P : β → Bool} {l : List β} (hi : l[i]? = some x)
    (h : P x = true → P y = true) : l.countP P ≤ (l.set i y).countP P := by
  obtain ⟨hlt, hx⟩ := List.getElem?_eq_some_iff.1 hi
  rw [List.countP_set hlt, hx]
  cases hP : P x with
  | true =>
    have hpos : 0 < l.countP P := List.countP_pos_iff.2 ⟨x, List.mem_of_getElem? hi, hP⟩
    simp only [h hP, if_true]
    omega
  | false => simp

theorem countP_set_new {P : β → Bool} {l : List β} (hi : l[i]? = some x) (hx : P x = false)
    (hy : P y = true) : (l.set i y).countP P = l.countP P + 1 := by
  obtain ⟨hlt, he⟩ := List.getElem?_eq_some_iff.1 hi
  rw [List.countP_set hlt, he]
  simp [hx, hy]

theorem countP_holdsAt_append {γ : Type} (l' : List β) {l : List β} {P : β → Bool} {m : List γ}
    (f : γ → ℕ) (Q : γ → Bool) : m.countP (fun p => holdsAt l P (f p) && Q p) ≤
      m.countP (fun p => holdsAt (l ++ l') P (f p) && Q p) := by
  apply List.countP_mono_left
  intro p _ hp
  rw [Bool.and_eq_true] at hp ⊢
  exact ⟨holdsAt_append l' hp.1, hp.2⟩

/-- What replacing one element of a list changes in the lists that its elements stand for. -/
theorem count_flatMap_set {γ : Type} [DecidableEq γ] {f : β → List γ} {l : List β}
    (h : l[i]? = some x) (a : γ) :
    ((l.set i y).flatMap f).count a + (f x).count a =
      (l.flatMap f).count a + (f y).count a := by
  induction l generalizing i with
  | nil => simp at h
  | cons z l ih =>
    cases i with
    | zero =>
      simp only [List.getElem?_cons_zero, Option.some.injEq] at h
      subst h
      simp only [List.set_cons_zero, List.flatMap_cons, List.count_append]
      omega
    | succ i =>
      rw [List.getElem?_cons_succ] at h
      have hi := ih h
      simp only [List.set_cons_succ, List.flatMap_cons, List.count_append]
      omega

theorem map_set_of_eq {γ : Type} {f : β → γ} {l : List β} (h : l[i]? = some x)
    (hy : f y = f x) : (l.set i y).map f = l.map f := by
  have hlt : i < (l.map f).length := by
    rw [List.length_map]
    exact (List.getElem?_eq_some_iff.1 h).1
  have hget : (l.map f)[i] = f x := by
    rw [← Option.some.injEq, ← List.getElem?_eq_getElem hlt, List.getElem?_map, h, Option.map_some]
  rw [List.map_set, hy, ← hget]
  exact List.set_getElem_self hlt

end Suprime
