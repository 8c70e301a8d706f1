import Mathlib.Tactic.Ring
import Suprime.HonestMajority
import Suprime.QuorumOrder

namespace Suprime
set_option autoImplicit true

namespace QuorumRegister

variable {ν κ α : Type} [DecidableEq ν] [DecidableEq κ] [DecidableEq α] [PyNone α]

section
omit [PyNone α]

theorem judged_eq (accepted : α) (l : TrustLedger ν) (n : ν) (value : α) :
    judged accepted l n value =
      if value = accepted then min l.max (l.score n + 1 / 5)
      else Max.max 0 (l.score n - 1 / 2) := by
  simp only [judged, PyEq.eq, decide_eq_true_eq]

end

/-- `n` calls of `accepted` in a row: what they return and the register after them. -/
def polls (r : QuorumRegister ν κ α) (key : κ) : ℕ → List α × QuorumRegister ν κ α
  | 0 => ([], r)
  | n + 1 =>
    let o := r.resolve key
    let p := o.2.polls key n
    (o.1 :: p.1, p.2)

/-- Another call would change no score: nothing is accepted, or every voter for the accepted value
ends at the cap and every other one at zero. -/
def Settled (r : QuorumRegister ν κ α) (key : κ) : Prop :=
  r.tally key = pyNone ∨ 0 < r.ledger.max ∧ ∀ p ∈ (r.votesFor key).items,
    if p.2 = r.tally key then r.ledger.max ≤ r.ledger.score p.1 + 1 / 5
    else r.ledger.score p.1 ≤ 1 / 2

section
omit [DecidableEq ν]

theorem plurality_spec {w : ν → ℚ} {quorum : ℚ} {votes : List (ν × α)} {v : α}
    (h : plurality w quorum votes = v) (hv : v ≠ pyNone) :
    0 < totalWeight w votes ∧
      (totals w votes).items.argmax Prod.snd = some (v, weightOf w votes v) ∧
      quorum * totalWeight w votes ≤ weightOf w votes v := by
  unfold plurality at h
  by_cases hpos : totalWeight w votes ≤ 0
  · rw [if_pos hpos] at h
    exact absurd h.symm hv
  · rw [if_neg hpos] at h
    cases hbest : (totals w votes).items.argmax Prod.snd with
    | none =>
      rw [hbest] at h
      exact absurd h.symm hv
    | some best =>
      rw [hbest] at h
      dsimp only at h
      by_cases hq : quorum * totalWeight w votes ≤ best.2
      · rw [if_pos hq] at h
        obtain ⟨-, heq, -⟩ := argmax_totals hbest
        rw [h] at heq
        refine ⟨not_le.1 hpos, ?_, heq ▸ hq⟩
        rw [← heq, ← h]
      · rw [if_neg hq] at h
        exact absurd h.symm hv

theorem plurality_of_argmax {w : ν → ℚ} {quorum : ℚ} {votes : List (ν × α)} {v : α}
    (hpos : 0 < totalWeight w votes)
    (hbest : (totals w votes).items.argmax Prod.snd = some (v, weightOf w votes v))
    (hq : quorum * totalWeight w votes ≤ weightOf w votes v) :
    plurality w quorum votes = v := by
  rw [plurality, if_neg (not_le.2 hpos), hbest]
  dsimp only
  rw [if_pos hq]

end

section
omit [PyNone α] [DecidableEq ν]

theorem weightOf_mono {w w' : ν → ℚ} {votes : List (ν × α)} {v : α}
    (h : ∀ p ∈ votes, p.2 = v → w p.1 ≤ w' p.1) : weightOf w votes v ≤ weightOf w' votes v := by
  apply List.sum_le_sum
  intro p hp
  obtain ⟨hp, hv⟩ := List.mem_filter.1 hp
  exact h p hp (of_decide_eq_true hv)

end

def against (w : ν → ℚ) (votes : List (ν × α)) (v : α) : ℚ :=
  ((votes.filter (fun p => p.2 ≠ v)).map (fun p => w p.1)).sum

section
omit [PyNone α] [DecidableEq ν]

theorem weightOf_add_against (w : ν → ℚ) (votes : List (ν × α)) (v : α) :
    weightOf w votes v + against w votes v = totalWeight w votes := by
  induction votes with
  | nil => exact add_zero 0
  | cons p votes ih =>
    have hcons : totalWeight w (p :: votes) = w p.1 + totalWeight w votes := List.sum_cons
    rw [hcons, ← ih, weightOf, against]
    by_cases hv : p.2 = v
    · rw [List.filter_cons_of_pos (by simpa using hv), List.filter_cons_of_neg (by simpa using hv)]
      exact add_assoc _ _ _
    · rw [List.filter_cons_of_neg (by simpa using hv), List.filter_cons_of_pos (by simpa using hv)]
      exact add_left_comm _ _ _

theorem against_mono {w w' : ν → ℚ} {votes : List (ν × α)} {v : α}
    (h : ∀ p ∈ votes, p.2 ≠ v → w' p.1 ≤ w p.1) : against w' votes v ≤ against w votes v := by
  apply List.sum_le_sum
  intro p hp
  obtain ⟨hp, hv⟩ := List.mem_filter.1 hp
  exact h p hp (of_decide_eq_true hv)

theorem against_nonneg {w : ν → ℚ} (hw : ∀ n, 0 ≤ w n) (votes : List (ν × α)) (v : α) :
    0 ≤ against w votes v := by
  apply List.sum_nonneg
  intro x hx
  obtain ⟨p, -, rfl⟩ := List.mem_map.1 hx
  exact hw p.1

end

section
omit [PyNone α]

theorem keys_set_congr {d e : Dict α ℚ} (h : d.keys = e.keys) (k : α) (x y : ℚ) :
    (d.set k x).keys = (e.set k y).keys := by
  have hk : d.items.map Prod.fst = e.items.map Prod.fst := h
  by_cases hmem : k ∈ d.items.map Prod.fst
  · exact (keys_assocSet_of_mem hmem).trans (hk.trans (keys_assocSet_of_mem (hk ▸ hmem)).symm)
  · change (assocSet k x d.items).map Prod.fst = (assocSet k y e.items).map Prod.fst
    rw [assocSet_of_not_mem hmem, assocSet_of_not_mem (hk ▸ hmem), List.map_append,
      List.map_append, hk]
    rfl

end

section
omit [PyNone α] [DecidableEq ν]

theorem keys_totals (w w' : ν → ℚ) (votes : List (ν × α)) :
    (totals w votes).keys = (totals w' votes).keys := by
  induction votes using List.reverseRecOn with
  | nil => rfl
  | append_singleton votes p ih =>
    rw [totals_concat, totals_concat]
    exact keys_set_congr ih _ _ _

end

theorem idxOf_map {β γ : Type} [DecidableEq β] [DecidableEq γ] {f : β → γ} {l : List β}
    (hnd : (l.map f).Nodup) {b : β} (h : b ∈ l) : (l.map f).idxOf (f b) = l.idxOf b := by
  induction l with
  | nil => cases h
  | cons c l ih =>
    obtain ⟨hc, hnd⟩ := List.nodup_cons.1 hnd
    rw [List.map_cons]
    cases List.mem_cons.1 h with
    | inl he => rw [he, List.idxOf_cons_self, List.idxOf_cons_self]
    | inr hmem =>
      have hne : f c ≠ f b := by
        intro he
        rw [he] at hc
        exact hc (List.mem_map_of_mem hmem)
      rw [List.idxOf_cons_ne _ hne, List.idxOf_cons_ne _ (fun he => hne (congrArg f he)),
        ih hnd hmem]

section
omit [PyNone α] [DecidableEq ν]

theorem argmax_totals_iff {w : ν → ℚ} {votes : List (ν × α)} {v : α} :
    (totals w votes).items.argmax Prod.snd = some (v, weightOf w votes v) ↔
      v ∈ votes.map Prod.snd ∧ ∀ u ∈ votes.map Prod.snd, weightOf w votes u ≤ weightOf w votes v ∧
        (weightOf w votes v ≤ weightOf w votes u →
          (totals w votes).keys.idxOf v ≤ (totals w votes).keys.idxOf u) := by
  have hmem : ∀ u, u ∈ votes.map Prod.snd → (u, weightOf w votes u) ∈ (totals w votes).items :=
    fun u hu => mem_totals.2 ⟨hu, rfl⟩
  have hidx := fun u hu => idxOf_map (f := Prod.fst) (totals w votes).nodup (hmem u hu)
  rw [List.argmax_eq_some_iff]
  constructor
  · rintro ⟨hv, hmax, hfirst⟩
    have hvoted := (mem_totals.1 hv).1
    refine ⟨hvoted, fun u hu => ⟨hmax _ (hmem u hu), fun hle => ?_⟩⟩
    have hle' := hfirst _ (hmem u hu) hle
    rw [← hidx v hvoted, ← hidx u hu] at hle'
    exact hle'
  · rintro ⟨hvoted, hall⟩
    refine ⟨hmem v hvoted, ?_, ?_⟩
    · rintro ⟨u, x⟩ ha
      obtain ⟨hu, hx⟩ := mem_totals.1 ha
      rw [hx]
      exact (hall u hu).1
    · rintro ⟨u, x⟩ ha hle
      obtain ⟨hu, hx⟩ := mem_totals.1 ha
      dsimp only at hu hx hle
      rw [hx] at hle ⊢
      rw [← hidx v hvoted, ← hidx u hu]
      exact (hall u hu).2 hle

end

theorem quorum_le_one {quorum total best : ℚ} (hpos : 0 < total) (hq : quorum * total ≤ best)
    (hle : best ≤ total) : quorum ≤ 1 := by
  by_contra hlt
  have h := mul_lt_mul_of_pos_right (not_le.1 hlt) hpos
  linarith

section
omit [PyNone α] [DecidableEq ν]

theorem weight_le_weightOf {w : ν → ℚ} (hw : ∀ n, 0 ≤ w n) {votes : List (ν × α)} {p : ν × α}
    (hp : p ∈ votes) : w p.1 ≤ weightOf w votes p.2 := by
  apply List.single_le_sum
  · intro x hx
    obtain ⟨q, -, rfl⟩ := List.mem_map.1 hx
    exact hw q.1
  · exact List.mem_map.2 ⟨p, List.mem_filter.2 ⟨hp, decide_eq_true rfl⟩, rfl⟩

end

section
omit [DecidableEq ν]

/-- A value that is accepted stays accepted when its voters gain weight and the others lose some. -/
theorem plurality_mono {w w' : ν → ℚ} {quorum : ℚ} (hw : ∀ n, 0 ≤ w n) (hw' : ∀ n, 0 ≤ w' n)
    {votes : List (ν × α)} {v : α} (h : plurality w quorum votes = v) (hv : v ≠ pyNone)
    (hfor : ∀ p ∈ votes, p.2 = v → w p.1 ≤ w' p.1)
    (hagainst : ∀ p ∈ votes, p.2 ≠ v → w' p.1 ≤ w p.1) : plurality w' quorum votes = v := by
  obtain ⟨hpos, hbest, hq⟩ := plurality_spec h hv
  obtain ⟨hvoted, hall⟩ := argmax_totals_iff.1 hbest
  have hup := weightOf_mono hfor
  have hdown : ∀ u, u ≠ v → weightOf w' votes u ≤ weightOf w votes u :=
    fun u hu => weightOf_mono (fun p hp hpu => hagainst p hp (fun hpv => hu (hpu.symm.trans hpv)))
  have hsum := weightOf_add_against w votes v
  have hsum' := weightOf_add_against w' votes v
  have hrest := against_mono hagainst
  have hrest0 := against_nonneg hw votes v
  have hrest0' := against_nonneg hw' votes v
  have hv0 : 0 < weightOf w votes v := by
    by_contra hno
    have hzero : ∀ p ∈ votes, w p.1 ≤ 0 := by
      intro p hp
      have hone := weight_le_weightOf hw hp
      have hle := (hall p.2 (List.mem_map_of_mem hp)).1
      linarith
    have htotal : totalWeight w votes ≤ 0 := by
      have hle := List.sum_le_sum hzero
      rw [List.map_const', List.sum_replicate, nsmul_zero] at hle
      exact hle
    linarith
  apply plurality_of_argmax
  · linarith
  · apply argmax_totals_iff.2
    refine ⟨hvoted, fun u hu => ?_⟩
    by_cases huv : u = v
    · rw [huv]
      exact ⟨le_rfl, fun _ => le_rfl⟩
    · obtain ⟨hle, hfirst⟩ := hall u hu
      refine ⟨((hdown u huv).trans hle).trans hup, fun hge => ?_⟩
      rw [keys_totals w' w]
      exact hfirst (hup.trans (hge.trans (hdown u huv)))
  · have hdiff : quorum * totalWeight w' votes - weightOf w' votes v =
        (quorum - 1) * weightOf w' votes v + quorum * against w' votes v := by
      rw [← hsum']
      ring
    have hdiff' : quorum * totalWeight w votes - weightOf w votes v =
        (quorum - 1) * weightOf w votes v + quorum * against w votes v := by
      rw [← hsum]
      ring
    have hquorum := quorum_le_one hpos hq (by linarith)
    have hup' := mul_le_mul_of_nonpos_left hup (sub_nonpos.2 hquorum)
    by_cases hq0 : 0 ≤ quorum
    · have hrest' := mul_le_mul_of_nonneg_left hrest hq0
      linarith
    · have hrest' := mul_nonpos_of_nonpos_of_nonneg (not_le.1 hq0).le hrest0'
      have hup0 := mul_nonpos_of_nonpos_of_nonneg (sub_nonpos.2 hquorum) (hv0.le.trans hup)
      linarith

theorem plurality_of_unopposed {w : ν → ℚ} {quorum : ℚ} {votes : List (ν × α)} {v : α}
    (hpos : 0 < weightOf w votes v) (hquorum : quorum ≤ 1)
    (hagainst : ∀ p ∈ votes, p.2 ≠ v → w p.1 = 0) : plurality w quorum votes = v := by
  have hrest : against w votes v = 0 := by
    apply List.sum_eq_zero
    intro x hx
    obtain ⟨p, hp, rfl⟩ := List.mem_map.1 hx
    obtain ⟨hp, hpv⟩ := List.mem_filter.1 hp
    exact hagainst p hp (of_decide_eq_true hpv)
  have hsum := weightOf_add_against w votes v
  rw [hrest, add_zero] at hsum
  have hother : ∀ u, u ≠ v → weightOf w votes u = 0 := by
    intro u hu
    apply List.sum_eq_zero
    intro x hx
    obtain ⟨p, hp, rfl⟩ := List.mem_map.1 hx
    obtain ⟨hp, hpu⟩ := List.mem_filter.1 hp
    exact hagainst p hp (fun hpv => hu ((of_decide_eq_true hpu).symm.trans hpv))
  have hvoted : v ∈ votes.map Prod.snd := by
    by_contra hno
    rw [weightOf_of_notMem w hno] at hpos
    exact lt_irrefl _ hpos
  apply plurality_of_argmax
  · rw [← hsum]
    exact hpos
  · apply argmax_totals_iff.2
    refine ⟨hvoted, fun u _ => ?_⟩
    by_cases huv : u = v
    · rw [huv]
      exact ⟨le_rfl, fun _ => le_rfl⟩
    · rw [hother u huv]
      exact ⟨hpos.le, fun hle => absurd hle (not_le.2 hpos)⟩
  · rw [← hsum]
    have h := mul_le_mul_of_nonneg_right hquorum hpos.le
    rw [one_mul] at h
    exact h

end

theorem resolve_of_none {r : QuorumRegister ν κ α} {key : κ} (h : r.tally key = pyNone) :
    r.resolve key = (pyNone, r) := by
  rw [resolve]
  exact if_pos h

theorem resolve_of_ne {r : QuorumRegister ν κ α} {key : κ} (h : r.tally key ≠ pyNone) :
    r.resolve key = (r.tally key, { r with
      ledger := (r.votesFor key).items.foldl (judge (r.tally key)) r.ledger }) := by
  rw [resolve]
  exact if_neg h

theorem resolve_fst (r : QuorumRegister ν κ α) (key : κ) : (r.resolve key).1 = r.tally key := by
  by_cases h : r.tally key = pyNone
  · rw [resolve_of_none h, h]
  · rw [resolve_of_ne h]

theorem resolve_fields (r : QuorumRegister ν κ α) (key : κ) :
    (r.resolve key).2.quorum = r.quorum ∧ (r.resolve key).2.votes = r.votes ∧
      (r.resolve key).2.ledger.max = r.ledger.max := by
  by_cases h : r.tally key = pyNone
  · rw [resolve_of_none h]
    exact ⟨rfl, rfl, rfl⟩
  · rw [resolve_of_ne h]
    exact ⟨rfl, rfl, (judges_fields _ _ _).2⟩

theorem votesFor_resolve (r : QuorumRegister ν κ α) (key : κ) :
    (r.resolve key).2.votesFor = r.votesFor := by
  unfold votesFor
  rw [(r.resolve_fields key).2.1]

theorem score_resolve {r : QuorumRegister ν κ α} {key : κ} (h : r.tally key ≠ pyNone)
    (hp : p ∈ (r.votesFor key).items) :
    (r.resolve key).2.ledger.score p.1 = judged (r.tally key) r.ledger p.1 p.2 := by
  rw [resolve_of_ne h]
  dsimp only
  rw [score_judges _ _ (r.votesFor key).nodup,
    (mem_iff_lookup (r.votesFor key).nodup).1 (show (p.1, p.2) ∈ _ from hp)]
  rfl

theorem score_resolve_of_not_mem {r : QuorumRegister ν κ α} {key : κ} {m : ν}
    (hm : ∀ p ∈ (r.votesFor key).items, p.1 ≠ m) :
    (r.resolve key).2.ledger.score m = r.ledger.score m := by
  by_cases h : r.tally key = pyNone
  · rw [resolve_of_none h]
  · rw [resolve_of_ne h]
    dsimp only
    rw [score_judges _ _ (r.votesFor key).nodup, List.lookup_eq_none_iff.2]
    · rfl
    · intro p hp
      exact bne_iff_ne.2 (Ne.symm (hm p hp))

theorem exists_score_pos {r : QuorumRegister ν κ α} {key : κ} (h : r.tally key ≠ pyNone) :
    ∃ p ∈ (r.votesFor key).items, 0 < r.ledger.score p.1 := by
  rw [tally_eq_plurality] at h
  obtain ⟨hpos, -, -⟩ := plurality_spec rfl h
  by_contra hno
  have hzero : totalWeight r.ledger.weight (r.votesFor key).items = 0 := by
    apply List.sum_eq_zero
    intro x hx
    obtain ⟨p, hp, rfl⟩ := List.mem_map.1 hx
    exact max_eq_left (not_lt.1 (fun hlt => hno ⟨p, hp, hlt⟩))
  rw [hzero] at hpos
  exact lt_irrefl _ hpos

theorem score_resolve_le {r : QuorumRegister ν κ α} {key : κ}
    (hcap : ∀ m, r.ledger.score m ≤ r.ledger.max) (m : ν) :
    (r.resolve key).2.ledger.score m ≤ r.ledger.max := by
  by_cases h : r.tally key = pyNone
  · rw [resolve_of_none h]
    exact hcap m
  · by_cases hm : ∃ p ∈ (r.votesFor key).items, p.1 = m
    · obtain ⟨p, hp, rfl⟩ := hm
      obtain ⟨q, -, hq⟩ := exists_score_pos h
      rw [score_resolve h hp, judged]
      split
      · exact min_le_left _ _
      · apply max_le (hq.le.trans (hcap q.1))
        have hp1 := hcap p.1
        linarith
    · rw [score_resolve_of_not_mem (fun p hp he => hm ⟨p, hp, he⟩)]
      exact hcap m

theorem tally_resolve {r : QuorumRegister ν κ α} {key : κ}
    (hcap : ∀ m, r.ledger.score m ≤ r.ledger.max) :
    (r.resolve key).2.tally key = r.tally key := by
  by_cases h : r.tally key = pyNone
  · rw [resolve_of_none h]
  · rw [tally_eq_plurality, votesFor_resolve, (r.resolve_fields key).1]
    apply plurality_mono r.ledger.weight_nonneg (TrustLedger.weight_nonneg _)
      (r.tally_eq_plurality key).symm h
    · intro p hp hpv
      rw [TrustLedger.weight, TrustLedger.weight, score_resolve h hp, judged_eq, if_pos hpv]
      apply max_le_max le_rfl
      apply le_min (hcap p.1)
      linarith
    · intro p hp hpv
      rw [TrustLedger.weight, TrustLedger.weight, score_resolve h hp, judged_eq, if_neg hpv]
      apply max_le (le_max_left _ _)
      apply max_le_max le_rfl
      linarith

theorem polls_values {r : QuorumRegister ν κ α} {key : κ}
    (hcap : ∀ m, r.ledger.score m ≤ r.ledger.max) (n : ℕ) :
    (r.polls key n).1 = List.replicate n (r.tally key) := by
  induction n generalizing r with
  | zero => rfl
  | succ n ih =>
    have hcap' : ∀ m, (r.resolve key).2.ledger.score m ≤ (r.resolve key).2.ledger.max := by
      intro m
      rw [(r.resolve_fields key).2.2]
      exact score_resolve_le hcap m
    change (r.resolve key).1 :: ((r.resolve key).2.polls key n).1 = _
    rw [ih hcap', tally_resolve hcap, resolve_fst]
    rfl

section
omit [PyNone α]

theorem foldl_judge_self {accepted : α} {l : TrustLedger ν} {votes : List (ν × α)}
    (h : ∀ p ∈ votes, judge accepted l p = l) : votes.foldl (judge accepted) l = l := by
  induction votes with
  | nil => rfl
  | cons p votes ih =>
    rw [List.foldl_cons, h p List.mem_cons_self]
    exact ih (fun q hq => h q (List.mem_cons_of_mem p hq))

theorem get_scores_judge (accepted : α) (l : TrustLedger ν) (p : ν × α) (m : ν) :
    (judge accepted l p).scores.get m =
      if m = p.1 then some (judged accepted l p.1 p.2) else l.scores.get m := by
  unfold judge judged
  split
  · exact Dict.get_set _ _ _ _
  · exact Dict.get_set _ _ _ _

theorem get_scores_judges {accepted : α} {l : TrustLedger ν} {votes : List (ν × α)}
    (hp : p ∈ votes) : (votes.foldl (judge accepted) l).scores.get p.1 =
      some ((votes.foldl (judge accepted) l).score p.1) := by
  have hsome : ∃ x, (votes.foldl (judge accepted) l).scores.get p.1 = some x := by
    obtain ⟨pre, post, rfl⟩ := List.append_of_mem hp
    rw [List.foldl_append, List.foldl_cons]
    apply List.foldlRecOn (motive := fun l => ∃ x, l.scores.get p.1 = some x) post (judge accepted)
    · exact ⟨_, (get_scores_judge _ _ _ _).trans (if_pos rfl)⟩
    · rintro l ⟨x, hx⟩ q -
      rw [get_scores_judge]
      split
      · exact ⟨_, rfl⟩
      · exact ⟨x, hx⟩
  obtain ⟨x, hx⟩ := hsome
  rw [TrustLedger.score, hx]
  rfl

theorem judge_self {accepted : α} {l : TrustLedger ν} {p : ν × α}
    (h : l.scores.get p.1 = some (judged accepted l p.1 p.2)) : judge accepted l p = l := by
  unfold judged at h
  unfold judge
  split
  · rename_i hv
    rw [if_pos hv] at h
    rw [TrustLedger.reward, Dict.set_of_get h]
  · rename_i hv
    rw [if_neg hv] at h
    rw [TrustLedger.penalize, Dict.set_of_get h]

end

theorem min_add_idem {s m : ℚ} :
    min m (min m (s + 1 / 5) + 1 / 5) = min m (s + 1 / 5) ↔ m ≤ s + 1 / 5 := by
  constructor
  · intro h
    by_contra hlt
    rw [min_eq_right (not_le.1 hlt).le] at h
    have hle := min_le_iff.1 h.le
    rcases hle with hle | hle
    · exact hlt hle
    · linarith
  · intro h
    rw [min_eq_left h]
    apply min_eq_left
    linarith

theorem max_sub_idem {s : ℚ} :
    max 0 (max 0 (s - 1 / 2) - 1 / 2) = max 0 (s - 1 / 2) ↔ s ≤ 1 / 2 := by
  constructor
  · intro h
    by_contra hlt
    rw [max_eq_right (show 0 ≤ s - 1 / 2 by linarith)] at h
    rcases le_max_iff.1 h.ge with hle | hle
    · linarith
    · linarith
  · intro h
    rw [max_eq_left (show s - 1 / 2 ≤ 0 by linarith)]
    exact max_eq_left (by norm_num)

theorem tally_resolve_of_settled {r : QuorumRegister ν κ α} {key : κ} (hmax : 0 < r.ledger.max)
    (hall : ∀ p ∈ (r.votesFor key).items, if p.2 = r.tally key
      then r.ledger.max ≤ r.ledger.score p.1 + 1 / 5 else r.ledger.score p.1 ≤ 1 / 2)
    (h : r.tally key ≠ pyNone) : (r.resolve key).2.tally key = r.tally key := by
  rw [tally_eq_plurality] at h
  obtain ⟨hpos, hbest, hq⟩ := plurality_spec rfl h
  rw [← tally_eq_plurality] at h hbest hq
  obtain ⟨hvoted, -⟩ := argmax_totals_iff.1 hbest
  have hweight : ∀ p ∈ (r.votesFor key).items, (r.resolve key).2.ledger.weight p.1 =
      if p.2 = r.tally key then r.ledger.max else 0 := by
    intro p hp
    have hpall := hall p hp
    rw [TrustLedger.weight, score_resolve h hp, judged_eq]
    by_cases hv : p.2 = r.tally key
    · simp only [if_pos hv] at hpall ⊢
      rw [min_eq_left hpall, max_eq_right hmax.le]
    · simp only [if_neg hv] at hpall ⊢
      rw [max_eq_left (show r.ledger.score p.1 - 1 / 2 ≤ 0 by linarith), max_self]
  rw [tally_eq_plurality, votesFor_resolve, (r.resolve_fields key).1]
  apply plurality_of_unopposed
  · obtain ⟨p, hp, hv⟩ := List.mem_map.1 hvoted
    have hle := weight_le_weightOf (TrustLedger.weight_nonneg (r.resolve key).2.ledger) hp
    rw [hweight p hp, if_pos hv, hv] at hle
    exact hmax.trans_le hle
  · apply quorum_le_one hpos hq
    have hsum := weightOf_add_against r.ledger.weight (r.votesFor key).items (r.tally key)
    have hrest := against_nonneg r.ledger.weight_nonneg (r.votesFor key).items (r.tally key)
    linarith
  · intro p hp hv
    rw [hweight p hp, if_neg hv]

/-- The second call leaves everything as the first one did exactly when the key is settled. -/
theorem resolve_resolve_iff {r : QuorumRegister ν κ α} {key : κ} :
    (r.resolve key).2.resolve key = (r.tally key, (r.resolve key).2) ↔ r.Settled key := by
  constructor
  · intro h
    by_cases hnone : r.tally key = pyNone
    · exact .inl hnone
    · have hval : (r.resolve key).2.tally key = r.tally key := by
        rw [← resolve_fst, h]
      have hnone' : (r.resolve key).2.tally key ≠ pyNone := fun he => hnone (hval.symm.trans he)
      have hscores : ∀ p ∈ (r.votesFor key).items,
          judged (r.tally key) (r.resolve key).2.ledger p.1 p.2 =
            judged (r.tally key) r.ledger p.1 p.2 := by
        intro p hp
        have hp' : p ∈ ((r.resolve key).2.votesFor key).items := by
          rw [votesFor_resolve]
          exact hp
        have hscore := score_resolve hnone' hp'
        rw [h, hval] at hscore
        exact hscore.symm.trans (score_resolve hnone hp)
      have hall : ∀ p ∈ (r.votesFor key).items,
          if p.2 = r.tally key then r.ledger.max ≤ r.ledger.score p.1 + 1 / 5
          else r.ledger.score p.1 ≤ 1 / 2 := by
        intro p hp
        have hp2 := hscores p hp
        have hp1 := score_resolve hnone hp
        simp only [judged_eq] at hp1 hp2
        by_cases hv : p.2 = r.tally key
        · simp only [if_pos hv] at hp1 hp2 ⊢
          rw [hp1, (r.resolve_fields key).2.2] at hp2
          exact min_add_idem.1 hp2
        · simp only [if_neg hv] at hp1 hp2 ⊢
          rw [hp1] at hp2
          exact max_sub_idem.1 hp2
      refine .inr ⟨?_, hall⟩
      obtain ⟨p, hp, hpos⟩ := exists_score_pos hnone'
      rw [votesFor_resolve] at hp
      have hp1 := hall p hp
      rw [score_resolve hnone hp, judged_eq] at hpos
      by_cases hv : p.2 = r.tally key
      · rw [if_pos hv] at hpos
        exact hpos.trans_le (min_le_left _ _)
      · rw [if_neg hv] at hp1 hpos
        rw [max_eq_left (show r.ledger.score p.1 - 1 / 2 ≤ 0 by linarith)] at hpos
        exact absurd hpos (lt_irrefl 0)
  · rintro (hnone | ⟨hmax, hall⟩)
    · rw [resolve_of_none hnone, resolve_of_none hnone, hnone]
    · by_cases hnone : r.tally key = pyNone
      · rw [resolve_of_none hnone, resolve_of_none hnone, hnone]
      · have hval := tally_resolve_of_settled hmax hall hnone
        have hnone' : (r.resolve key).2.tally key ≠ pyNone := fun he => hnone (hval.symm.trans he)
        have hledger : (r.votesFor key).items.foldl (judge (r.tally key)) (r.resolve key).2.ledger =
            (r.resolve key).2.ledger := by
          apply foldl_judge_self
          intro p hp
          apply judge_self
          have hscore := score_resolve hnone hp
          have hget : (r.resolve key).2.ledger.scores.get p.1 =
              some ((r.resolve key).2.ledger.score p.1) := by
            rw [resolve_of_ne hnone]
            exact get_scores_judges hp
          rw [hget, Option.some_inj, judged_eq, hscore, (r.resolve_fields key).2.2, judged_eq]
          have hpall := hall p hp
          by_cases hv : p.2 = r.tally key
          · simp only [if_pos hv] at hpall ⊢
            exact (min_add_idem.2 hpall).symm
          · simp only [if_neg hv] at hpall ⊢
            exact (max_sub_idem.2 hpall).symm
        rw [resolve_of_ne hnone', hval, votesFor_resolve, hledger]

theorem polls_of_fixed {r : QuorumRegister ν κ α} {key : κ} (h : r.resolve key = (v, r)) (n : ℕ) :
    r.polls key n = (List.replicate n v, r) := by
  induction n with
  | zero => rfl
  | succ n ih =>
    rw [polls, h, ih]
    rfl

/-- Calls in a row return what the first one returns while no score exceeds the cap, and they leave
the register as the first one does exactly when the key is settled. -/
theorem polls_as_one_iff (r : QuorumRegister ν κ α) (key : κ) :
    ((∀ m, r.ledger.score m ≤ r.ledger.max) →
      ∀ n, (r.polls key n).1 = List.replicate n (r.resolve key).1) ∧
    ((∀ n, 1 ≤ n → r.polls key n =
      (List.replicate n (r.resolve key).1, (r.resolve key).2)) ↔ r.Settled key) := by
  rw [resolve_fst]
  refine ⟨polls_values, ?_⟩
  rw [← resolve_resolve_iff]
  constructor
  · intro h
    have htwo := h 2 (by omega)
    change ([_, ((r.resolve key).2.resolve key).1], ((r.resolve key).2.resolve key).2) = _ at htwo
    obtain ⟨hvals, hreg⟩ := Prod.mk.inj htwo
    apply Prod.ext
    · exact (List.cons.inj (List.cons.inj hvals).2).1
    · exact hreg
  · intro h n hn
    obtain ⟨n, rfl⟩ := Nat.exists_eq_add_of_le' hn
    rw [polls, polls_of_fixed h, resolve_fst]
    rfl

/-- Two voters agree, and a third one contradicts them. -/
def threeVotes : QuorumRegister ℕ Bool (Option ℕ) :=
  recorded (.init 1 5) (1 / 2) [(true, 0, some 1), (true, 1, some 1), (true, 2, some 2),
    (false, 0, some 1), (false, 2, some 2), (false, 3, some 2)]

theorem polls_as_one_threeVotes :
    ∀ n, (threeVotes.polls true n).1 = List.replicate n (threeVotes.resolve true).1 := by
  apply (polls_as_one_iff threeVotes true).1
  intro m
  change (1 : ℚ) ≤ 5
  norm_num

/-- The same votes, with everybody above the cap. -/
def overCap : QuorumRegister ℕ Bool (Option ℕ) :=
  { threeVotes with ledger := .init 10 1 }

/-- A node that asks twice has other scores than one that asks once, and it decides otherwise on
the next key. Above the cap the second answer is another one, since rewards take trust away. -/
theorem polled_twice_decides_otherwise :
    (threeVotes.polls true 1).2.tally false = some 2 ∧
      (threeVotes.polls true 2).2.tally false = some 1 ∧
      (¬ ∀ n, 1 ≤ n → threeVotes.polls true n =
        (List.replicate n (threeVotes.resolve true).1, (threeVotes.resolve true).2)) ∧
      (overCap.polls true 2).1 = [some 1, some 2] := by
  have hone : (threeVotes.polls true 1).2.tally false = some 2 := by decide +kernel
  have htwo : (threeVotes.polls true 2).2.tally false = some 1 := by decide +kernel
  refine ⟨hone, htwo, fun h => ?_, by decide +kernel⟩
  have he := congrArg Prod.snd ((h 2 (by omega)).trans rfl)
  rw [he] at htwo
  rw [congrArg Prod.snd (h 1 le_rfl), htwo] at hone
  cases hone

end QuorumRegister

end Suprime
