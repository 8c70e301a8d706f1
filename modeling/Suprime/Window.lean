import Mathlib.Data.Finset.Dedup
import Mathlib.Data.Finset.Card
import Mathlib.Data.List.DropRight
import Mathlib.Data.List.Induction

namespace Suprime
set_option autoImplicit true

/-- Put an element behind a queue, and take the first one off when the queue gets too long. -/
def pushFifo (cap : ℕ) (q : List α) (a : α) : List α :=
  if cap < (q ++ [a]).length then (q ++ [a]).tail else q ++ [a]

theorem rtake_eq_drop (l : List α) (n : ℕ) : l.rtake n = l.drop (l.length - n) := rfl

theorem length_rtake_le (l : List α) (n : ℕ) : (l.rtake n).length ≤ n := by
  rw [rtake_eq_drop, List.length_drop]
  omega

theorem rtake_of_length_le {l : List α} (h : l.length ≤ n) : l.rtake n = l := by
  rw [rtake_eq_drop, Nat.sub_eq_zero_of_le h, List.drop_zero]

theorem rtake_append_of_le {l : List α} (h : n ≤ l.length) (l' : List α) :
    (l' ++ l).rtake n = l.rtake n := by
  rw [rtake_eq_drop, rtake_eq_drop, List.length_append, List.drop_append,
    List.drop_eq_nil_of_le (by omega), List.nil_append]
  congr 1
  omega

theorem rtake_append_of_length_le {l' : List α} (h : l'.length ≤ n) (l : List α) :
    (l ++ l').rtake n = l.drop (l.length + l'.length - n) ++ l' := by
  rw [rtake_eq_drop, List.length_append, List.drop_append_of_le_length (by omega)]

/-- A queue that holds the last `cap` elements of a history holds the last `cap` ones after it. -/
theorem pushFifo_rtake (cap : ℕ) (l : List α) (a : α) :
    pushFifo cap (l.rtake cap) a = (l ++ [a]).rtake cap := by
  unfold pushFifo
  by_cases hcap : cap ≤ l.length
  · have hlen : (l.rtake cap ++ [a]).length = cap + 1 := by
      rw [List.length_append, rtake_eq_drop, List.length_drop, List.length_singleton]
      omega
    have hdrop : l.rtake cap ++ [a] = (l ++ [a]).drop (l.length - cap) :=
      (List.drop_append_of_le_length (Nat.sub_le _ _)).symm
    rw [if_pos (by omega), hdrop, List.tail_drop, rtake_eq_drop, List.length_append]
    congr 1
    simp only [List.length_singleton]
    omega
  · have hlen : (l ++ [a]).length ≤ cap := by
      rw [List.length_append, List.length_singleton]
      omega
    rw [rtake_of_length_le (by omega), if_neg (by omega), rtake_of_length_le hlen]

/-- No element of the history is among the `cap` ones before it. -/
def Spaced (cap : ℕ) (l : List α) : Prop :=
  ∀ pre a post, l = pre ++ a :: post → a ∉ pre.rtake cap

theorem Spaced.nil (cap : ℕ) : Spaced cap ([] : List α) := by
  intro pre a post h
  exact absurd h.symm (List.append_ne_nil_of_right_ne_nil _ (List.cons_ne_nil a post))

theorem Spaced.concat {l : List α} (h : Spaced cap l) (ha : a ∉ l.rtake cap) :
    Spaced cap (l ++ [a]) := by
  intro pre b post hl
  cases post using List.reverseRecOn with
  | nil =>
    obtain ⟨rfl, hb⟩ := List.append_inj' hl rfl
    cases hb
    exact ha
  | append_singleton post c =>
    rw [← List.cons_append, ← List.append_assoc] at hl
    exact h pre b post (List.append_inj' hl rfl).1

theorem Spaced.left {l : List α} (h : Spaced cap (l ++ l')) : Spaced cap l := by
  intro pre a post hl
  apply h pre a (post ++ l')
  rw [hl, List.append_assoc, List.cons_append]

theorem Spaced.nodup_rtake {l : List α} (h : Spaced cap l) : (l.rtake cap).Nodup := by
  induction l using List.reverseRecOn with
  | nil =>
    rw [List.rtake_nil]
    exact List.nodup_nil
  | append_singleton l a ih =>
    have hnew : (l.rtake cap ++ [a]).Nodup := by
      apply List.Nodup.append (ih h.left) (List.nodup_singleton a)
      rw [List.disjoint_singleton]
      exact h l a [] rfl
    rw [← pushFifo_rtake, pushFifo]
    split
    · exact hnew.sublist (List.tail_sublist _)
    · exact hnew

theorem Spaced.others [DecidableEq α] {pre mid post : List α}
    (h : Spaced cap (pre ++ a :: mid ++ a :: post)) : cap ≤ (mid.toFinset.erase a).card := by
  have hpre : Spaced cap (pre ++ a :: mid) := h.left
  have hout : a ∉ (pre ++ a :: mid).rtake cap := h _ a post rfl
  have hlen : cap ≤ mid.length := by
    by_contra hlt
    apply hout
    rw [rtake_append_of_length_le (by rw [List.length_cons]; omega)]
    exact List.mem_append_right _ List.mem_cons_self
  have hwindow : (pre ++ a :: mid).rtake cap = mid.rtake cap := by
    rw [List.append_cons, rtake_append_of_le hlen]
  rw [hwindow] at hout
  have hnd : (mid.rtake cap).Nodup := hwindow ▸ hpre.nodup_rtake
  have hsub : (mid.rtake cap).toFinset ⊆ mid.toFinset.erase a := by
    intro b hb
    rw [List.mem_toFinset] at hb
    refine Finset.mem_erase.2 ⟨?_, List.mem_toFinset.2 (List.mem_of_mem_drop hb)⟩
    rintro rfl
    exact hout hb
  calc
    cap = (mid.rtake cap).length := by
      rw [rtake_eq_drop, List.length_drop]
      omega
    _ = (mid.rtake cap).toFinset.card := (List.toFinset_card_of_nodup hnd).symm
    _ ≤ (mid.toFinset.erase a).card := Finset.card_le_card hsub

/-- The last `cap` distinct elements of a history. -/
def lastDistinct [DecidableEq α] (cap : ℕ) (l : List α) : List α := l.dedup.rtake cap

theorem lastDistinct_eq [DecidableEq α] {l : List α} (h : (l.rtake cap).Nodup) :
    lastDistinct cap l = l.rtake cap := by
  by_cases hcap : cap ≤ l.length
  · have hsplit : l = l.take (l.length - cap) ++ l.rtake cap := (List.take_append_drop _ _).symm
    have hlen : (l.rtake cap).length = cap := by
      rw [rtake_eq_drop, List.length_drop]
      omega
    obtain ⟨front, hfront⟩ := List.suffix_union_right (l.take (l.length - cap)) (l.rtake cap)
    have hdedup : l.dedup = front ++ l.rtake cap := by
      rw [hfront]
      nth_rewrite 1 [hsplit]
      rw [List.dedup_append, h.dedup]
    rw [lastDistinct, hdedup, rtake_append_of_le hlen.ge, rtake_of_length_le hlen.le]
  · have hall : l.rtake cap = l := rtake_of_length_le (by omega)
    rw [hall] at h
    rw [lastDistinct, h.dedup]

theorem lastDistinct_of_spaced [DecidableEq α] {l : List α} (h : Spaced cap l) :
    lastDistinct cap l = l.rtake cap :=
  lastDistinct_eq h.nodup_rtake

end Suprime
