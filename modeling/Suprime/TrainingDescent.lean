import Mathlib.Algebra.BigOperators.Fin
import Mathlib.Data.List.GetD
import Suprime.LeastSquares
import Suprime.Learning

namespace Suprime
set_option autoImplicit true

open Matrix FloatArith

namespace LinearModel

variable {dim : ℕ}

/-- The weights of a model, and its bias. -/
def vec (dim : ℕ) (m : LinearModel ℚ) : Option (Fin dim) → ℚ
  | none => m.b
  | some i => m.w.getD i 0

/-- The features of a sample, and the factor of the bias. -/
def features (s : Sample ℚ dim) : Option (Fin dim) → ℚ
  | none => 1
  | some i => s.x.getD i 0

def design (data : List (Sample ℚ dim)) : Matrix (Fin data.length) (Option (Fin dim)) ℚ :=
  fun i => features data[i.1]

def labels (data : List (Sample ℚ dim)) : Fin data.length → ℚ := fun i => data[i.1].y

def error (data : List (Sample ℚ dim)) (m : LinearModel ℚ) : ℚ :=
  LeastSquares.sse (design data) (labels data) (m.vec dim)

def gradientVec (dim : ℕ) (g : Gradient ℚ) : Option (Fin dim) → ℚ
  | none => g.b
  | some i => g.w.getD i 0

theorem foldlM_addTerm (m : LinearModel ℚ) {x : List ℚ} (hx : k ≤ x.length) (hw : k ≤ m.w.length) :
    (List.range k).foldlM (m.addTerm x) 0 =
      some (∑ i ∈ Finset.range k, m.w.getD i 0 * x.getD i 0) := by
  induction k with
  | zero => rfl
  | succ k ih =>
    rw [List.range_succ, List.foldlM_append, ih (Nat.le_of_succ_le hx) (Nat.le_of_succ_le hw),
      Finset.sum_range_succ]
    have hwk : m.w.getD k 0 = m.w[k] := List.getD_eq_getElem _ _ hw
    have hxk : x.getD k 0 = x[k] := List.getD_eq_getElem _ _ hx
    change (m.addTerm x _ k).bind some = _
    rw [addTerm, List.getElem?_eq_getElem hw, List.getElem?_eq_getElem hx, hwk, hxk]
    rfl

theorem predictAt_eq (m : LinearModel ℚ) (s : Sample ℚ dim) (hm : m.w.length = dim) :
    m.predictAt s.x = some (features s ⬝ᵥ m.vec dim) := by
  have hx := s.length_eq
  rw [predictAt, hm]
  change ((List.range dim).foldlM (m.addTerm s.x) 0).bind _ = _
  rw [m.foldlM_addTerm hx.ge hm.ge, Option.bind_some]
  congr 1
  rw [dotProduct, Fintype.sum_option, add_comm, Finset.sum_range]
  change _ + m.b = _ + 1 * m.b
  rw [one_mul]
  congr 1
  apply Finset.sum_congr rfl
  intro i _
  exact mul_comm _ _

theorem foldlM_addFeature (e : ℚ) {x gradW : List ℚ} (hx : k ≤ x.length) (hg : k ≤ gradW.length) :
    ∃ g', (List.range k).foldlM (addFeature e x) gradW = some g' ∧ g'.length = gradW.length ∧
      ∀ i, g'.getD i 0 = gradW.getD i 0 + if i < k then e * x.getD i 0 else 0 := by
  induction k with
  | zero => exact ⟨gradW, rfl, rfl, fun i => (add_zero _).symm⟩
  | succ k ih =>
    obtain ⟨g, hfold, hlen, hget⟩ := ih (Nat.le_of_succ_le hx) (Nat.le_of_succ_le hg)
    have hk : k < g.length := by
      rw [hlen]
      exact hg
    refine ⟨g.set k (g[k] + e * x[k]), ?_, by rw [List.length_set, hlen], fun i => ?_⟩
    · rw [List.range_succ, List.foldlM_append, hfold]
      change (addFeature e x g k).bind some = _
      rw [addFeature, List.getElem?_eq_getElem hk, List.getElem?_eq_getElem hx]
      rfl
    · have hgk := hget k
      rw [if_neg (Nat.lt_irrefl k), add_zero, List.getD_eq_getElem _ _ hk] at hgk
      by_cases hi : i = k
      · subst hi
        rw [if_pos (Nat.lt_succ_self i), List.getD_eq_getElem _ _ (by rwa [List.length_set]),
          List.getElem_set_self, hgk, List.getD_eq_getElem x 0 hx]
      · have hset : (g.set k (g[k] + e * x[k])).getD i 0 = g.getD i 0 := by
          rw [List.getD_eq_getElem?_getD, List.getElem?_set_ne (Ne.symm hi),
            List.getD_eq_getElem?_getD]
        have hlt : i < k + 1 ↔ i < k := by omega
        rw [hset, hget]
        simp only [hlt]

theorem addSample_eq (m : LinearModel ℚ) (n : ℚ) {g : Gradient ℚ} (s : Sample ℚ dim)
    (hm : m.w.length = dim) (hg : g.w.length = dim) :
    ∃ g', m.addSample n g s = some g' ∧ g'.w.length = dim ∧
      g'.sse = g.sse + (features s ⬝ᵥ m.vec dim - s.y) * (features s ⬝ᵥ m.vec dim - s.y) ∧
      gradientVec dim g' = gradientVec dim g +
        (2 * (features s ⬝ᵥ m.vec dim - s.y) / n) • features s := by
  have hx := s.length_eq
  obtain ⟨gradW, hfold, hlen, hget⟩ :=
    foldlM_addFeature (2 * (features s ⬝ᵥ m.vec dim - s.y) / n) (le_refl s.x.length)
      (show s.x.length ≤ g.w.length by rw [hx, hg])
  refine ⟨⟨gradW, g.b + 2 * (features s ⬝ᵥ m.vec dim - s.y) / n, g.sse +
    (features s ⬝ᵥ m.vec dim - s.y) * (features s ⬝ᵥ m.vec dim - s.y)⟩, ?_, hlen.trans hg, rfl, ?_⟩
  · rw [addSample, m.predictAt_eq s hm]
    change ((List.range s.x.length).foldlM
      (addFeature (2 * (features s ⬝ᵥ m.vec dim - s.y) / n) s.x) g.w).bind _ = _
    rw [hfold]
    rfl
  · ext i
    cases i with
    | none => exact congrArg (g.b + ·) (mul_one _).symm
    | some i =>
      have hi : i.1 < s.x.length := by
        rw [hx]
        exact i.2
      change gradW.getD i 0 = _
      rw [hget, if_pos hi]
      rfl

theorem foldlM_addSample (m : LinearModel ℚ) (n : ℚ) (data : List (Sample ℚ dim))
    (hm : m.w.length = dim) {g : Gradient ℚ} (hg : g.w.length = dim) :
    ∃ g', data.foldlM (m.addSample n) g = some g' ∧ g'.w.length = dim ∧
      g'.sse = g.sse + (data.map (fun s =>
        (features s ⬝ᵥ m.vec dim - s.y) * (features s ⬝ᵥ m.vec dim - s.y))).sum ∧
      gradientVec dim g' = gradientVec dim g + (data.map (fun s =>
        (2 * (features s ⬝ᵥ m.vec dim - s.y) / n) • features s)).sum := by
  induction data generalizing g with
  | nil => exact ⟨g, rfl, hg, (add_zero _).symm, (add_zero _).symm⟩
  | cons s data ih =>
    obtain ⟨g₁, hadd, hlen, hsse, hvec⟩ := m.addSample_eq n s hm hg
    obtain ⟨g', hfold, hlen', hsse', hvec'⟩ := ih hlen
    refine ⟨g', ?_, hlen', ?_, ?_⟩
    · rw [List.foldlM_cons, hadd]
      exact hfold
    · rw [hsse', hsse, List.map_cons, List.sum_cons, add_assoc]
    · rw [hvec', hvec, List.map_cons, List.sum_cons, add_assoc]

theorem error_eq_sum (data : List (Sample ℚ dim)) (m : LinearModel ℚ) :
    m.error data = (data.map (fun s =>
      (features s ⬝ᵥ m.vec dim - s.y) * (features s ⬝ᵥ m.vec dim - s.y))).sum := by
  rw [← Fin.sum_univ_fun_getElem data]
  rfl

theorem smul_slope_eq_sum (data : List (Sample ℚ dim)) (m : LinearModel ℚ) (n : ℚ) :
    (data.map (fun s => (2 * (features s ⬝ᵥ m.vec dim - s.y) / n) • features s)).sum =
      (2 / n) • LeastSquares.slope (design data) (labels data) (m.vec dim) := by
  rw [← Fin.sum_univ_fun_getElem data]
  ext j
  rw [Finset.sum_apply, Pi.smul_apply, LeastSquares.slope, vecMul, dotProduct, smul_eq_mul,
    Finset.mul_sum]
  apply Finset.sum_congr rfl
  intro i _
  change 2 * (features data[i.1] ⬝ᵥ m.vec dim - data[i.1].y) / n * features data[i.1] j =
    2 / n * ((features data[i.1] ⬝ᵥ m.vec dim - data[i.1].y) * features data[i.1] j)
  ring

theorem vec_descend (m : LinearModel ℚ) (lr : ℚ) {g : Gradient ℚ} (hm : m.w.length = dim)
    (hg : g.w.length = dim) : (m.descend lr g).vec dim = m.vec dim - lr • gradientVec dim g := by
  ext i
  cases i with
  | none => rfl
  | some i =>
    have hi : i.1 < m.w.length := hm ▸ i.2
    have hi' : i.1 < g.w.length := hg ▸ i.2
    have hz : i.1 < (m.w.zip g.w).length := by
      rw [List.length_zip]
      exact lt_min hi hi'
    change ((m.w.zip g.w).map (fun p : ℚ × ℚ => p.1 - lr * p.2)).getD i 0 =
      m.w.getD i 0 - lr * g.w.getD i 0
    rw [List.getD_eq_getElem _ _ (by rwa [List.length_map]), List.getElem_map, List.getElem_zip,
      List.getD_eq_getElem _ _ hi, List.getD_eq_getElem _ _ hi']

/-- One step of `sgd_step` is a step along the gradient of the mean squared error, which it
returns. -/
theorem sgdStep_eq (m : LinearModel ℚ) (data : List (Sample ℚ dim)) (lr : ℚ)
    (hm : m.w.length = dim) :
    ∃ m', m.sgdStep data lr = some (m', m.error data / data.length) ∧ m'.w.length = dim ∧
      m'.vec dim = m.vec dim -
        (lr * (2 / data.length)) • LeastSquares.slope (design data) (labels data) (m.vec dim) := by
  unfold sgdStep
  by_cases hn : data.length = 0
  · rw [if_pos hn]
    cases List.length_eq_zero_iff.1 hn
    refine ⟨m, ?_, hm, ?_⟩
    · have hzero : (([] : List (Sample ℚ dim)).length : ℚ) = 0 := Nat.cast_zero
      rw [hzero, div_zero]
      rfl
    · have hzero : (([] : List (Sample ℚ dim)).length : ℚ) = 0 := Nat.cast_zero
      rw [hzero, div_zero, mul_zero, zero_smul, sub_zero]
  · rw [if_neg hn]
    obtain ⟨g, hfold, hlen, hsse, hvec⟩ := m.foldlM_addSample (data.length : ℚ) data hm
      (g := ⟨List.replicate m.w.length 0, 0, 0⟩) (by rw [List.length_replicate, hm])
    have hstart : gradientVec dim ⟨List.replicate m.w.length 0, 0, 0⟩ = 0 := by
      ext i
      cases i with
      | none => rfl
      | some i =>
        have hi : i.1 < (List.replicate m.w.length (0 : ℚ)).length := by
          rw [List.length_replicate, hm]
          exact i.2
        change (List.replicate m.w.length (0 : ℚ)).getD i 0 = 0
        rw [List.getD_eq_getElem _ _ hi, List.getElem_replicate]
    rw [hstart, zero_add, smul_slope_eq_sum] at hvec
    rw [zero_add, ← error_eq_sum] at hsse
    refine ⟨m.descend lr g, ?_, ?_, ?_⟩
    · change (data.foldlM (m.addSample (data.length : ℚ))
        ⟨List.replicate m.w.length 0, 0, 0⟩).bind _ = _
      rw [hfold, ← hsse]
      rfl
    · rw [descend, List.length_map, List.length_zip, hm, hlen, min_self]
    · rw [m.vec_descend lr hm hlen, hvec, smul_smul]

theorem averageWith_eq (m other : LinearModel ℚ) (hm : m.w.length = dim)
    (ho : other.w.length = dim) :
    ∃ m', m.averageWith other.w other.b = some m' ∧ m'.w.length = dim ∧
      m'.vec dim = (2 : ℚ)⁻¹ • (m.vec dim + other.vec dim) := by
  have hmap : (m.w.zip other.w).mapM (fun p : ℚ × ℚ => some ((p.1 + p.2) / 2)) =
      some ((m.w.zip other.w).map (fun p => (p.1 + p.2) / 2)) :=
    List.mapM_pure ..
  refine ⟨⟨(m.w.zip other.w).map (fun p => (p.1 + p.2) / 2), (m.b + other.b) / 2⟩, ?_, ?_, ?_⟩
  · rw [averageWith]
    change ((m.w.zip other.w).mapM (fun p : ℚ × ℚ => some ((p.1 + p.2) / 2))).bind _ = _
    rw [hmap]
    rfl
  · rw [List.length_map, List.length_zip, hm, ho, min_self]
  · ext i
    rw [Pi.smul_apply, Pi.add_apply, smul_eq_mul, inv_mul_eq_div]
    cases i with
    | none => rfl
    | some i =>
      have hi : i.1 < m.w.length := by
        rw [hm]
        exact i.2
      have hi' : i.1 < other.w.length := by
        rw [ho]
        exact i.2
      have hz : i.1 < (m.w.zip other.w).length := by
        rw [List.length_zip]
        exact lt_min hi hi'
      change ((m.w.zip other.w).map (fun p : ℚ × ℚ => (p.1 + p.2) / 2)).getD i 0 =
        (m.w.getD i 0 + other.w.getD i 0) / 2
      rw [List.getD_eq_getElem _ _ (by rwa [List.length_map]), List.getElem_map, List.getElem_zip,
        List.getD_eq_getElem _ _ hi, List.getD_eq_getElem _ _ hi']

end LinearModel

end Suprime
