import Mathlib.Data.List.Basic

namespace Suprime
set_option autoImplicit true

/-- What handling something leaves: an exception does not undo what was done before it. -/
structure Handled (σ : Type u) where
  state : σ
  raised : Bool

section
variable {σ : Type u} {ι : Type v} (step : σ → ι → Handled σ)

/-- Handle one item after the other, up to the first exception. -/
def runItems (s : σ) : List ι → Handled σ
  | [] => ⟨s, false⟩
  | x :: l => if (step s x).raised then step s x else runItems (step s x).state l

/-- What an item does without an exception does not decide whether a later one raises. -/
def Unrelated (x y : ι) : Prop :=
  ∀ s, (step s x).raised = false → (step (step s x).state y).raised = (step s y).raised

/-- States only grow, and an item that raises nothing leaves the state or makes it grow
strictly. -/
structure Growing (le : σ → σ → Prop) : Prop where
  refl : ∀ s, le s s
  trans : ∀ {s t u}, le s t → le t u → le s u
  grows : ∀ s x, le s (step s x).state
  strict : ∀ s x, (step s x).raised = false → le (step s x).state s → (step s x).state = s

/-- No item changes the state up to the first one that raises. -/
def StopsQuietly (s : σ) (l : List ι) : Prop :=
  ∀ before x after, l = before ++ x :: after → (step s x).raised = true →
    (∀ y ∈ before, (step s y).raised = false) → ∀ y ∈ before ++ [x], (step s y).state = s

variable {step}

theorem runItems_of_raised (h : (step s x).raised = true) (l : List ι) :
    runItems step s (x :: l) = step s x := if_pos h

theorem runItems_of_not_raised (h : (step s x).raised = false) (l : List ι) :
    runItems step s (x :: l) = runItems step (step s x).state l :=
  if_neg (fun hr => by rw [h] at hr; cases hr)

theorem runItems_append {s : σ} {l : List ι} (h : (runItems step s l).raised = false)
    (l' : List ι) :
    runItems step s (l ++ l') = runItems step (runItems step s l).state l' := by
  induction l generalizing s with
  | nil => rfl
  | cons x l ih =>
    cases hx : (step s x).raised with
    | true =>
      rw [runItems_of_raised hx, hx] at h
      cases h
    | false =>
      rw [runItems_of_not_raised hx] at h
      rw [List.cons_append, runItems_of_not_raised hx, runItems_of_not_raised hx]
      exact ih h

theorem runItems_preserves (P : σ → Prop) {l : List ι}
    (h : ∀ x ∈ l, ∀ s, P s → P (step s x).state) (hs : P s) : P (runItems step s l).state := by
  induction l generalizing s with
  | nil => exact hs
  | cons x l ih =>
    cases hx : (step s x).raised with
    | true =>
      rw [runItems_of_raised hx]
      exact h x List.mem_cons_self s hs
    | false =>
      rw [runItems_of_not_raised hx]
      exact ih (fun y hy => h y (List.mem_cons_of_mem _ hy)) (h x List.mem_cons_self s hs)

theorem runItems_not_raised {s : σ} {l : List ι} (h : ∀ x ∈ l, ∀ s, (step s x).raised = false) :
    (runItems step s l).raised = false := by
  induction l generalizing s with
  | nil => rfl
  | cons x l ih =>
    rw [runItems_of_not_raised (h x List.mem_cons_self s)]
    exact ih (fun y hy => h y (List.mem_cons_of_mem _ hy))

theorem Growing.run {le : σ → σ → Prop} (h : Growing step le) (s : σ) (l : List ι) :
    le s (runItems step s l).state := by
  induction l generalizing s with
  | nil => exact h.refl s
  | cons x l ih =>
    cases hx : (step s x).raised with
    | true =>
      rw [runItems_of_raised hx]
      exact h.grows s x
    | false =>
      rw [runItems_of_not_raised hx]
      exact h.trans (h.grows s x) (ih _)

/-- With unrelated items a run raises when one of them raises in the state before the run. -/
theorem raised_runItems_iff {s : σ} {l : List ι} (h : l.Pairwise (Unrelated step)) :
    (runItems step s l).raised = true ↔ ∃ x ∈ l, (step s x).raised = true := by
  induction l generalizing s with
  | nil => exact iff_of_false Bool.false_ne_true (fun ⟨x, hx, _⟩ => by cases hx)
  | cons x l ih =>
    obtain ⟨hx, hl⟩ := List.pairwise_cons.1 h
    cases hr : (step s x).raised with
    | true =>
      rw [runItems_of_raised hr]
      exact iff_of_true hr ⟨x, List.mem_cons_self, hr⟩
    | false =>
      rw [runItems_of_not_raised hr, ih hl]
      constructor
      · intro ⟨y, hy, hyr⟩
        rw [hx y hy s hr] at hyr
        exact ⟨y, List.mem_cons_of_mem _ hy, hyr⟩
      · intro ⟨y, hy, hyr⟩
        cases List.mem_cons.1 hy with
        | inl hyx =>
          rw [hyx, hr] at hyr
          cases hyr
        | inr hy =>
          rw [← hx y hy s hr] at hyr
          exact ⟨y, hy, hyr⟩

theorem exists_first_raised {s : σ} {l : List ι} (h : ∃ x ∈ l, (step s x).raised = true) :
    ∃ before x after, l = before ++ x :: after ∧ (step s x).raised = true ∧
      ∀ y ∈ before, (step s y).raised = false := by
  induction l with
  | nil =>
    obtain ⟨x, hx, _⟩ := h
    cases hx
  | cons z l ih =>
    cases hz : (step s z).raised with
    | true => exact ⟨[], z, l, rfl, hz, fun y hy => by cases hy⟩
    | false =>
      obtain ⟨x, hx, hr⟩ := h
      cases List.mem_cons.1 hx with
      | inl hxz =>
        rw [hxz, hz] at hr
        cases hr
      | inr hx =>
        obtain ⟨before, y, after, rfl, hy, hb⟩ := ih ⟨x, hx, hr⟩
        exact ⟨z :: before, y, after, rfl, hy, List.forall_mem_cons.2 ⟨hz, hb⟩⟩

theorem stopsQuietly_cons_of_raised (h : (step s x).raised = true) (l : List ι) :
    StopsQuietly step s (x :: l) ↔ (step s x).state = s := by
  constructor
  · intro hq
    exact hq [] x l rfl h (fun y hy => by cases hy) x List.mem_cons_self
  · intro hx before y after hl hy hb z hz
    cases before with
    | nil =>
      obtain ⟨rfl, rfl⟩ := List.cons.inj hl
      rw [List.mem_singleton.1 hz]
      exact hx
    | cons w before =>
      obtain ⟨rfl, rfl⟩ := List.cons.inj hl
      rw [hb x List.mem_cons_self] at h
      cases h

theorem stopsQuietly_cons_of_same (h : (step s x).raised = false) (hs : (step s x).state = s)
    (l : List ι) : StopsQuietly step s (x :: l) ↔ StopsQuietly step s l := by
  constructor
  · intro hq before y after hl hy hb z hz
    apply hq (x :: before) y after (by rw [hl]; rfl) hy (List.forall_mem_cons.2 ⟨h, hb⟩) z
    exact List.mem_cons_of_mem _ hz
  · intro hq before y after hl hy hb z hz
    cases before with
    | nil =>
      obtain ⟨rfl, rfl⟩ := List.cons.inj hl
      rw [h] at hy
      cases hy
    | cons w before =>
      obtain ⟨rfl, rfl⟩ := List.cons.inj hl
      cases List.mem_cons.1 hz with
      | inl hzx =>
        rw [hzx]
        exact hs
      | inr hz => exact hq before y after rfl hy (fun v hv => hb v (List.mem_cons_of_mem _ hv)) z hz

theorem stopsQuietly_cons_of_changed (h : (step s x).raised = false)
    (hs : (step s x).state ≠ s) (l : List ι) :
    StopsQuietly step s (x :: l) ↔ ∀ y ∈ l, (step s y).raised = false := by
  constructor
  · intro hq y hy
    cases hyr : (step s y).raised with
    | false => rfl
    | true =>
      obtain ⟨before, z, after, hl, hz, hb⟩ := exists_first_raised ⟨y, hy, hyr⟩
      exact absurd (hq (x :: before) z after (by rw [hl]; rfl) hz
        (List.forall_mem_cons.2 ⟨h, hb⟩) x List.mem_cons_self) hs
  · intro hl before y after he hy _
    have hmem : y ∈ x :: l := he ▸ List.mem_append_right _ List.mem_cons_self
    cases List.mem_cons.1 hmem with
    | inl hyx =>
      rw [hyx, h] at hy
      cases hy
    | inr hmem =>
      rw [hl y hmem] at hy
      cases hy

/-- A run that raises has no effect exactly when no item up to the first that raises has one. -/
theorem runItems_quiet_iff {le : σ → σ → Prop} (hg : Growing step le) {s : σ} {l : List ι}
    (hl : l.Pairwise (Unrelated step)) :
    ((runItems step s l).raised = true → (runItems step s l).state = s) ↔
      StopsQuietly step s l := by
  induction l with
  | nil =>
    apply iff_of_true (fun h => by cases h)
    intro before x after h
    cases before <;> cases h
  | cons x l ih =>
    obtain ⟨hx, htail⟩ := List.pairwise_cons.1 hl
    cases hr : (step s x).raised with
    | true =>
      rw [runItems_of_raised hr, stopsQuietly_cons_of_raised hr]
      exact ⟨fun h => h hr, fun h _ => h⟩
    | false =>
      rw [runItems_of_not_raised hr]
      by_cases hs : (step s x).state = s
      · rw [stopsQuietly_cons_of_same hr hs, hs]
        exact ih htail
      · rw [stopsQuietly_cons_of_changed hr hs]
        have hfinal : (runItems step (step s x).state l).state ≠ s := by
          intro he
          have hle := hg.run (step s x).state l
          rw [he] at hle
          exact hs (hg.strict s x hr hle)
        have hraised := raised_runItems_iff (s := (step s x).state) htail
        constructor
        · intro h y hy
          cases hyr : (step s y).raised with
          | false => rfl
          | true =>
            rw [← hx y hy s hr] at hyr
            exact absurd (h (hraised.2 ⟨y, hy, hyr⟩)) hfinal
        · intro h hrun
          obtain ⟨y, hy, hyr⟩ := hraised.1 hrun
          rw [hx y hy s hr, h y hy] at hyr
          cases hyr

end

end Suprime
