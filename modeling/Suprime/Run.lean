import Mathlib.Algebra.GroupWithZero.Nat
import Mathlib.Data.List.Basic

namespace Suprime
set_option autoImplicit true

/-- Runs of a guarded step function. The past lists, newest first, each state that was left
together with the label of the step that left it. -/
inductive Run (step : σ → ℓ → Option σ) (s₀ : σ) : List (σ × ℓ) → σ → Prop
  | start : Run step s₀ [] s₀
  | next : Run step s₀ past s → step s a = some s' → Run step s₀ ((s, a) :: past) s'

/-- The state after a list of labels, when every step of it is enabled. -/
def exec (step : σ → ℓ → Option σ) (s : σ) : List ℓ → Option σ
  | [] => some s
  | a :: ls => (step s a).bind (exec step · ls)

/-- The steps a list of labels takes, newest first. -/
def execPast (step : σ → ℓ → Option σ) (s : σ) (past : List (σ × ℓ)) :
    List ℓ → List (σ × ℓ)
  | [] => past
  | a :: ls =>
    match step s a with
    | some s' => execPast step s' ((s, a) :: past) ls
    | none => past

theorem Run.exec (h : Run step s₀ past s) (he : exec step s ls = some s') :
    Run step s₀ (execPast step s past ls) s' := by
  induction ls generalizing s past with
  | nil =>
    simp only [Suprime.exec, Option.some.injEq] at he
    subst s'
    exact h
  | cons a ls ih =>
    obtain ⟨t, ht, he⟩ := Option.bind_eq_some_iff.1 he
    simp only [execPast, ht]
    exact ih (h.next ht) he

/-- Evaluating a list of labels gives a run, and what the evaluation shows of its last state. -/
theorem exists_run_of_exec (step : σ → ℓ → Option σ) (s₀ : σ) (ls : List ℓ) (f : σ → τ) (b : τ)
    (h : (exec step s₀ ls).map f = some b) : ∃ past s, Run step s₀ past s ∧ f s = b := by
  obtain ⟨s, hs, hb⟩ := Option.map_eq_some_iff.1 h
  exact ⟨_, s, Run.start.exec hs, hb⟩

theorem exists_run_of_execPast (step : σ → ℓ → Option σ) (s₀ : σ) (ls : List ℓ)
    (f : List (σ × ℓ) → σ → τ) (b : τ)
    (h : (exec step s₀ ls).map (f (execPast step s₀ [] ls)) = some b) :
    ∃ past s, Run step s₀ past s ∧ f past s = b := by
  obtain ⟨s, hs, hb⟩ := Option.map_eq_some_iff.1 h
  exact ⟨_, s, Run.start.exec hs, hb⟩

/-- The state after a list of labels, when every step of it is enabled and meets a condition. -/
def execWhere (step : σ → ℓ → Option σ) (C : σ → ℓ → Prop) [∀ s a, Decidable (C s a)] (s : σ) :
    List ℓ → Option σ
  | [] => some s
  | a :: ls => if C s a then (step s a).bind (execWhere step C · ls) else none

theorem Run.execWhere {C : σ → ℓ → Prop} [∀ s a, Decidable (C s a)]
    (h : Run step s₀ past s) (hC : ∀ p ∈ past, C p.1 p.2)
    (he : execWhere step C s ls = some s') :
    ∃ past', Run step s₀ past' s' ∧ ∀ p ∈ past', C p.1 p.2 := by
  induction ls generalizing s past with
  | nil =>
    simp only [Suprime.execWhere, Option.some.injEq] at he
    subst s'
    exact ⟨past, h, hC⟩
  | cons a ls ih =>
    rw [Suprime.execWhere] at he
    by_cases hc : C s a
    · rw [if_pos hc] at he
      obtain ⟨t, ht, he⟩ := Option.bind_eq_some_iff.1 he
      apply ih (h.next ht) ?_ he
      intro p hp
      rcases List.mem_cons.1 hp with rfl | hp
      · exact hc
      · exact hC p hp
    · rw [if_neg hc] at he
      cases he

theorem exists_run_of_execWhere (step : σ → ℓ → Option σ) (C : σ → ℓ → Prop)
    [∀ s a, Decidable (C s a)] (s₀ : σ) (ls : List ℓ) (f : σ → τ) (b : τ)
    (h : (execWhere step C s₀ ls).map f = some b) :
    ∃ past s, Run step s₀ past s ∧ (∀ p ∈ past, C p.1 p.2) ∧ f s = b := by
  obtain ⟨s, hs, hb⟩ := Option.map_eq_some_iff.1 h
  obtain ⟨past, hr, hC⟩ := Run.start.execWhere (fun p hp => by cases hp) hs
  exact ⟨past, s, hr, hC, hb⟩

theorem Run.invariant {I : σ → Prop} {C : σ → ℓ → Prop} (h : Run step s₀ past s)
    (hC : ∀ p ∈ past, C p.1 p.2) (h₀ : I s₀)
    (hI : ∀ s a s', I s → C s a → step s a = some s' → I s') : I s := by
  induction h with
  | start => exact h₀
  | next hr hs ih =>
    have hs' := ih (fun p hp => hC p (List.mem_cons_of_mem _ hp))
    exact hI _ _ _ hs' (hC _ List.mem_cons_self) hs

theorem Run.of_mem_past (h : Run step s₀ past s) (hp : (t, a) ∈ past) :
    ∃ pre post t', past = post ++ (t, a) :: pre ∧ Run step s₀ pre t ∧
      step t a = some t' ∧ Run step t' post s := by
  induction h with
  | start => cases hp
  | @next past s b s' hr hs ih =>
    rcases List.mem_cons.1 hp with he | hm
    · cases he
      exact ⟨past, [], s', rfl, hr, hs, .start⟩
    · obtain ⟨pre, post, t', he, hpre, ht, hpost⟩ := ih hm
      exact ⟨pre, (s, b) :: post, t', by rw [he]; rfl, hpre, ht, hpost.next hs⟩

theorem Run.split (h : Run step s₀ (post ++ (t, a) :: pre) s) :
    ∃ t', Run step s₀ pre t ∧ step t a = some t' ∧ Run step t' post s := by
  induction post generalizing s with
  | nil =>
    cases h with
    | next hr hs => exact ⟨s, hr, hs, .start⟩
  | cons x post ih =>
    cases h with
    | next hr hs =>
      obtain ⟨t', hpre, ht, hpost⟩ := ih hr
      exact ⟨t', hpre, ht, hpost.next hs⟩

theorem Run.append (h : Run step s₀ past s) (h' : Run step s past' s') :
    Run step s₀ (past' ++ past) s' := by
  induction h' with
  | start => exact h
  | next _ hs ih => exact ih.next hs

/-- A state of a run: the last one or one that the run has left. -/
def Visited (past : List (σ × ℓ)) (s t : σ) : Prop :=
  t = s ∨ ∃ a, (t, a) ∈ past

theorem Visited.next {σ : Type u} {ℓ : Type v} {past : List (σ × ℓ)} {s t : σ}
    (h : Visited past s t) (a : ℓ) (s' : σ) : Visited ((s, a) :: past) s' t := by
  rcases h with rfl | ⟨b, hb⟩
  · exact .inr ⟨a, List.mem_cons_self⟩
  · exact .inr ⟨b, List.mem_cons_of_mem _ hb⟩

theorem Run.visited_start {σ : Type u} {ℓ : Type v} {step : σ → ℓ → Option σ}
    {past : List (σ × ℓ)} {s₀ s : σ} (h : Run step s₀ past s) : Visited past s s₀ := by
  induction h with
  | start => exact .inl rfl
  | next _ _ ih => exact ih.next _ _

theorem Run.of_visited {σ : Type u} {ℓ : Type v} {step : σ → ℓ → Option σ}
    {past : List (σ × ℓ)} {s₀ s t : σ} (h : Run step s₀ past s) (ht : Visited past s t) :
    ∃ pre, Run step s₀ pre t ∧ pre ⊆ past := by
  rcases ht with rfl | ⟨a, ha⟩
  · exact ⟨past, h, fun x hx => hx⟩
  · obtain ⟨pre, post, t', he, hpre, _, _⟩ := h.of_mem_past ha
    rw [he]
    exact ⟨pre, hpre, fun x hx => List.mem_append_right _ (List.mem_cons_of_mem _ hx)⟩

theorem Run.visited_iff {σ : Type u} {ℓ : Type v} {step : σ → ℓ → Option σ} {I J : σ → Prop}
    {C : σ → ℓ → Prop} {past : List (σ × ℓ)} {s₀ s : σ} (h : Run step s₀ past s)
    (hI₀ : I s₀) (hJ₀ : J s₀) (hJ : ∀ s a s', J s → step s a = some s' → J s')
    (hI : ∀ s a s', J s → I s → step s a = some s' → (I s' ↔ C s a)) :
    (∀ t, Visited past s t → I t) ↔ ∀ p ∈ past, C p.1 p.2 := by
  induction h with
  | start =>
    refine iff_of_true (fun t ht => ?_) (fun p hp => by cases hp)
    rcases ht with rfl | ⟨a, ha⟩
    · exact hI₀
    · cases ha
  | @next past s a s' hr hs ih =>
    have hJs : J s := hr.invariant (C := fun _ _ => True) (fun _ _ => trivial) hJ₀
      (fun s a s' hs _ hstep => hJ s a s' hs hstep)
    constructor
    · intro hall p hp
      have hbefore := ih.1 (fun t ht => hall t (ht.next a s'))
      cases List.mem_cons.1 hp with
      | inl hp =>
        subst hp
        have hIs := hall s (.inr ⟨a, List.mem_cons_self⟩)
        exact (hI s a s' hJs hIs hs).1 (hall s' (.inl rfl))
      | inr hp => exact hbefore p hp
    · intro hC t ht
      have hbefore := ih.2 (fun p hp => hC p (List.mem_cons_of_mem _ hp))
      have hIs := hbefore s (.inl rfl)
      rcases ht with rfl | ⟨b, hb⟩
      · exact (hI _ _ _ hJs hIs hs).2 (hC _ List.mem_cons_self)
      · cases List.mem_cons.1 hb with
        | inl hb =>
          cases hb
          exact hIs
        | inr hb => exact hbefore t (.inr ⟨b, hb⟩)

theorem mem_eraseIdx_or {l : List α} (hi : l[i]? = some m) (hx : x ∈ l) :
    x = m ∨ x ∈ l.eraseIdx i := by
  induction l generalizing i with
  | nil => cases hx
  | cons y l ih =>
    cases i with
    | zero =>
      cases hi
      exact List.mem_cons.1 hx
    | succ i =>
      cases List.mem_cons.1 hx with
      | inl he => exact .inr (he ▸ List.mem_cons_self)
      | inr hx => exact (ih hi hx).imp_right (List.mem_cons_of_mem _)

/-- The nodes of the runs on fixed input are numbered from 0. -/
instance neZero_one : NeZero 1 := ⟨by decide⟩

instance neZero_two : NeZero 2 := ⟨by decide⟩

instance neZero_three : NeZero 3 := ⟨by decide⟩

end Suprime
