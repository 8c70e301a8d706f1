import Mathlib.Data.String.Basic
import Suprime.Byzantine
import Suprime.Run

namespace Suprime
set_option autoImplicit true

theorem Dict.items_perm {κ α : Type} [DecidableEq κ] {d e : Dict κ α} (h : d.Same e) :
    d.items.Perm e.items := by
  apply (List.perm_ext_iff_of_nodup d.nodup.of_map e.nodup.of_map).2
  intro p
  rw [show p = (p.1, p.2) from rfl, Dict.mem_items, Dict.mem_items, h p.1]

namespace QuorumRegister

variable {ν κ α : Type} [DecidableEq ν] [DecidableEq κ] [DecidableEq α] [PyNone α]

/-- The register after calls of `record_vote`. -/
def recorded (ledger : TrustLedger ν) (quorum : ℚ) (calls : List (κ × ν × α)) :
    QuorumRegister ν κ α :=
  calls.foldl (fun r c => r.recordVote c.1 c.2.1 c.2.2) (init ledger quorum)

/-- Two values hold exactly half of the weight each, and half is enough. -/
def Tied (w : ν → ℚ) (quorum : ℚ) (votes : List (ν × α)) : Prop :=
  quorum = 1 / 2 ∧ 0 < totalWeight w votes ∧ ∃ v v', v ≠ v' ∧
    weightOf w votes v = totalWeight w votes / 2 ∧ weightOf w votes v' = totalWeight w votes / 2

section
omit [DecidableEq ν] [PyNone α]

theorem weightOf_perm {votes votes' : List (ν × α)} (h : votes.Perm votes') (w : ν → ℚ) (v : α) :
    weightOf w votes v = weightOf w votes' v :=
  ((h.filter _).map _).sum_eq

end

section
omit [DecidableEq ν] [PyNone α] [DecidableEq α]

theorem totalWeight_perm {votes votes' : List (ν × α)} (h : votes.Perm votes') (w : ν → ℚ) :
    totalWeight w votes = totalWeight w votes' :=
  (h.map _).sum_eq

end

section
omit [DecidableEq ν]

theorem plurality_perm {w : ν → ℚ} {quorum : ℚ} (hw : ∀ n, 0 ≤ w n) (hq : 1 / 2 ≤ quorum)
    {votes votes' : List (ν × α)} (h : votes.Perm votes') (ht : ¬ Tied w quorum votes) :
    plurality w quorum votes = plurality w quorum votes' := by
  have htotal := totalWeight_perm h w
  unfold plurality
  rw [← htotal]
  split
  · rfl
  · rename_i hpos
    have hpos' : 0 < totalWeight w votes := not_le.1 hpos
    have hne : votes ≠ [] := by
      intro hnil
      rw [hnil] at hpos
      exact hpos le_rfl
    have hne' : votes' ≠ [] := by
      intro hnil
      rw [hnil] at h
      exact hne h.eq_nil
    obtain ⟨best, hbest⟩ := exists_argmax (w := w) hne
    obtain ⟨best', hbest'⟩ := exists_argmax (w := w) hne'
    rw [hbest, hbest']
    obtain ⟨hmem, heq, hmax⟩ := argmax_totals hbest
    obtain ⟨hmem', heq', hmax'⟩ := argmax_totals hbest'
    have hle : best.2 ≤ best'.2 := by
      rw [heq, weightOf_perm h]
      exact hmax' best.1 ((h.map Prod.snd).mem_iff.1 hmem)
    have hle' : best'.2 ≤ best.2 := by
      rw [heq', ← weightOf_perm h]
      exact hmax best'.1 ((h.map Prod.snd).mem_iff.2 hmem')
    have hsame : best'.2 = best.2 := le_antisymm hle' hle
    dsimp only
    rw [hsame]
    split
    · rename_i hquorum
      by_contra hdiff
      have hsum := weightOf_add_le hw votes hdiff
      rw [← heq, weightOf_perm h w best'.1, ← heq', hsame] at hsum
      have hmul : 1 / 2 * totalWeight w votes ≤ quorum * totalWeight w votes :=
        mul_le_mul_of_nonneg_right hq hpos'.le
      have hhalf : best.2 = totalWeight w votes / 2 := by linarith
      have hhalf' : quorum = 1 / 2 := by
        by_contra hne
        have hlt : 1 / 2 * totalWeight w votes < quorum * totalWeight w votes :=
          mul_lt_mul_of_pos_right (lt_of_le_of_ne hq (Ne.symm hne)) hpos'
        linarith
      refine ht ⟨hhalf', hpos', best.1, best'.1, hdiff, ?_, ?_⟩
      · rw [← heq, hhalf]
      · rw [weightOf_perm h, ← heq', hsame, hhalf]
    · rfl

end

section
omit [DecidableEq ν] [PyNone α]

theorem head?_keys_totals (w : ν → ℚ) (p : ν × α) (votes : List (ν × α)) :
    (totals w (p :: votes)).keys.head? = some p.2 := by
  induction votes using List.reverseRecOn with
  | nil => rfl
  | append_singleton votes q ih =>
    rw [← List.cons_append, totals_concat]
    have hkeys : ∀ d : Dict α ℚ, ∀ k x, d.keys.head? = some p.2 →
        (d.set k x).keys.head? = some p.2 := by
      intro d k x hd
      by_cases hk : k ∈ d.items.map Prod.fst
      · change ((assocSet k x d.items).map Prod.fst).head? = _
        rw [keys_assocSet_of_mem hk]
        exact hd
      · change ((assocSet k x d.items).map Prod.fst).head? = _
        rw [assocSet_of_not_mem hk, List.map_append, List.head?_append]
        change d.keys.head?.or _ = _
        rw [hd]
        rfl
    exact hkeys _ _ _ ih

end

section
omit [DecidableEq ν]

theorem plurality_of_first {w : ν → ℚ} (hw : ∀ n, 0 ≤ w n) {votes : List (ν × α)} {p : ν × α}
    (hpos : 0 < totalWeight w (p :: votes))
    (hhalf : weightOf w (p :: votes) p.2 = totalWeight w (p :: votes) / 2) :
    plurality w (1 / 2) (p :: votes) = p.2 := by
  have hhead := head?_keys_totals w p votes
  have hbest : (totals w (p :: votes)).items.argmax Prod.snd =
      some (p.2, totalWeight w (p :: votes) / 2) := by
    apply List.argmax_eq_some_iff.2
    obtain ⟨q, hq, hq2⟩ : ∃ q, (totals w (p :: votes)).items.head? = some q ∧ q.1 = p.2 := by
      rw [Dict.keys, List.head?_map] at hhead
      obtain ⟨q, hq, he⟩ := Option.map_eq_some_iff.1 hhead
      exact ⟨q, hq, he⟩
    have hqmem : q ∈ (totals w (p :: votes)).items := List.mem_of_mem_head? hq
    have hqeq : q = (p.2, totalWeight w (p :: votes) / 2) := by
      obtain ⟨_, hw2⟩ := mem_totals.1 hqmem
      rw [hq2, hhalf] at hw2
      exact Prod.ext hq2 hw2
    rw [← hqeq]
    refine ⟨hqmem, fun a ha => ?_, fun a _ _ => ?_⟩
    · obtain ⟨_, hw2⟩ := mem_totals.1 ha
      rw [hqeq, hw2]
      by_cases hav : a.1 = p.2
      · rw [hav, hhalf]
      · have hsum := weightOf_add_le hw (p :: votes) hav
        rw [hhalf] at hsum
        linarith
    · cases hitems : (totals w (p :: votes)).items with
      | nil =>
        rw [hitems] at hq
        cases hq
      | cons x l =>
        rw [hitems] at hq
        cases hq
        simp [List.idxOf, List.findIdx_cons]
  unfold plurality
  rw [if_neg (not_le.2 hpos), hbest]
  have hquorum : 1 / 2 * totalWeight w (p :: votes) ≤ totalWeight w (p :: votes) / 2 := by linarith
  dsimp only
  rw [if_pos hquorum]

end

section
omit [PyNone α] [DecidableEq α]

theorem recorded_fields (ledger : TrustLedger ν) (quorum : ℚ) (calls : List (κ × ν × α)) :
    (recorded ledger quorum calls).ledger = ledger ∧
      (recorded ledger quorum calls).quorum = quorum := by
  induction calls using List.reverseRecOn with
  | nil => exact ⟨rfl, rfl⟩
  | append_singleton calls c ih =>
    rw [recorded, List.foldl_append]
    exact ih

theorem votesFor_recorded (ledger : TrustLedger ν) (quorum : ℚ) (key : κ) (l : List (ν × α)) :
    (recorded ledger quorum (l.map (fun p => (key, p)))).votesFor key = Dict.ofList l := by
  induction l using List.reverseRecOn with
  | nil => rfl
  | append_singleton l p ih =>
    rw [List.map_append, recorded, List.foldl_append, Dict.ofList_concat, ← ih]
    change (((recorded ledger quorum _).votes.set key _).get key).getD .empty = _
    rw [Dict.get_set_self]
    rfl

end

theorem tally_eq_plurality (r : QuorumRegister ν κ α) (key : κ) :
    r.tally key = plurality r.ledger.weight r.quorum (r.votesFor key).items := by
  unfold tally
  split
  · rename_i h
    rw [List.isEmpty_iff.1 h, plurality, if_pos (by simp [totalWeight])]
  · rfl

/-- The votes for a value, and then the others. -/
def frontFor (v : α) (votes : List (ν × α)) : List (ν × α) :=
  votes.filter (fun p => p.2 = v) ++ votes.filter (fun p => !decide (p.2 = v))

section
omit [DecidableEq ν] [PyNone α]

theorem frontFor_perm (v : α) (votes : List (ν × α)) : (frontFor v votes).Perm votes :=
  List.filter_append_perm _ votes

end

section
omit [DecidableEq ν]

theorem plurality_frontFor {w : ν → ℚ} (hw : ∀ n, 0 ≤ w n) {votes : List (ν × α)} {v : α}
    (hpos : 0 < totalWeight w votes) (hhalf : weightOf w votes v = totalWeight w votes / 2) :
    plurality w (1 / 2) (frontFor v votes) = v := by
  have hperm := frontFor_perm v votes
  rw [← totalWeight_perm hperm] at hpos hhalf
  rw [← weightOf_perm hperm] at hhalf
  cases hf : votes.filter (fun p => p.2 = v) with
  | nil =>
    have hzero : weightOf w (frontFor v votes) v = 0 := by
      rw [weightOf_perm hperm, weightOf, hf]
      rfl
    rw [hzero] at hhalf
    linarith
  | cons p l =>
    have hp : p.2 = v := by
      have hmem : p ∈ votes.filter (fun p => p.2 = v) := by
        rw [hf]
        exact List.mem_cons_self
      exact of_decide_eq_true (List.mem_filter.1 hmem).2
    have hfront : frontFor v votes = p :: (l ++ votes.filter (fun p => !decide (p.2 = v))) := by
      rw [frontFor, hf]
      rfl
    rw [hfront] at hpos hhalf ⊢
    rw [plurality_of_first hw hpos (hp.symm ▸ hhalf), hp]

end

/-- The result of a tally is independent of the order of the calls unless two values hold exactly
half of the weight each and half is the quorum. -/
theorem tally_order_independent_iff (ledger : TrustLedger ν) {quorum : ℚ}
    (hq : 1 / 2 ≤ quorum ∧ quorum ≤ 1) (key : κ) (calls : List (κ × ν × α)) :
    (∀ (ledger' : TrustLedger ν) (calls' : List (κ × ν × α)),
      (∀ n, ledger'.weight n = ledger.weight n) →
      (∀ n, ((recorded ledger' quorum calls').votesFor key).get n =
        ((recorded ledger quorum calls).votesFor key).get n) →
      (recorded ledger' quorum calls').tally key = (recorded ledger quorum calls).tally key) ↔
    ¬ Tied ledger.weight quorum ((recorded ledger quorum calls).votesFor key).items := by
  have hw := ledger.weight_nonneg
  constructor
  · rintro h ⟨rfl, hpos, v, v', hne, hhalf, hhalf'⟩
    have hpick : ∀ x, weightOf ledger.weight
        ((recorded ledger (1 / 2) calls).votesFor key).items x = totalWeight ledger.weight
          ((recorded ledger (1 / 2) calls).votesFor key).items / 2 →
        (recorded ledger (1 / 2) calls).tally key = x := by
      intro x hx
      have hperm := frontFor_perm x ((recorded ledger (1 / 2) calls).votesFor key).items
      have hnodup := (hperm.map Prod.fst).nodup_iff.2
        ((recorded ledger (1 / 2) calls).votesFor key).nodup
      have hvotes := votesFor_recorded ledger (1 / 2) key
        (frontFor x ((recorded ledger (1 / 2) calls).votesFor key).items)
      rw [← h ledger ((frontFor x
        ((recorded ledger (1 / 2) calls).votesFor key).items).map (fun p => (key, p)))
        (fun _ => rfl) ?_]
      · rw [tally_eq_plurality, hvotes, Dict.items_ofList_self hnodup, (recorded_fields _ _ _).1,
          (recorded_fields _ _ _).2]
        exact plurality_frontFor hw hpos hx
      · intro n
        rw [hvotes]
        apply Option.ext
        intro y
        rw [← Dict.mem_items, ← Dict.mem_items, Dict.items_ofList_self hnodup]
        exact hperm.mem_iff
    exact hne ((hpick v hhalf).symm.trans (hpick v' hhalf'))
  · intro ht ledger' calls' hweight hsame
    rw [tally_eq_plurality, tally_eq_plurality, (recorded_fields _ _ _).1,
      (recorded_fields _ _ _).2, (recorded_fields _ _ _).1, (recorded_fields _ _ _).2,
      funext hweight]
    have hperm := Dict.items_perm (d := (recorded ledger quorum calls).votesFor key)
      (e := (recorded ledger' quorum calls').votesFor key) (fun n => (hsame n).symm)
    exact (plurality_perm hw hq.1 hperm ht).symm

/-- Two of three nodes agree, and one of them changed its vote. -/
def twoOfThree : List (String × Fin 3 × Option ℕ) :=
  [("k", 0, some 2), ("k", 1, some 1), ("k", 2, some 2), ("k", 0, some 1)]

theorem tally_order_independent_two_of_three :
    (recorded (.init 1 5) (2 / 3) twoOfThree).tally "k" = some 1 ∧
    (recorded (.init 1 5 : TrustLedger (Fin 3)) (2 / 3)
      [("k", 2, some 2), ("k", 0, some 1), ("k", 1, some 1)]).tally "k" =
      (recorded (.init 1 5) (2 / 3) twoOfThree).tally "k" := by
  have hquorum : (1 / 2 : ℚ) ≤ 2 / 3 ∧ (2 / 3 : ℚ) ≤ 1 := ⟨by norm_num, by norm_num⟩
  have hiff := tally_order_independent_iff (.init 1 5 : TrustLedger (Fin 3)) hquorum "k" twoOfThree
  have hnot : ¬ Tied (TrustLedger.init 1 5 : TrustLedger (Fin 3)).weight (2 / 3)
      ((recorded (.init 1 5) (2 / 3) twoOfThree).votesFor "k").items := by
    intro ht
    have hhalf := ht.1
    norm_num at hhalf
  exact ⟨by decide +kernel, hiff.2 hnot _ _ (fun _ => rfl) (by decide)⟩

/-- Two nodes of equal weight vote for different values, and each order has its own winner. -/
theorem tally_of_tie_depends_on_order : ¬ ∀ (ledger ledger' : TrustLedger (Fin 2)) (quorum : ℚ)
    (calls calls' : List (String × Fin 2 × Option ℕ)), 1 / 2 ≤ quorum → quorum ≤ 1 →
    (∀ n, ledger'.weight n = ledger.weight n) →
    (∀ n, ((recorded ledger' quorum calls').votesFor "k").get n =
      ((recorded ledger quorum calls).votesFor "k").get n) →
    (recorded ledger' quorum calls').tally "k" = (recorded ledger quorum calls).tally "k" := by
  intro h
  have hsame := h (.init 1 5) (.init 1 5) (1 / 2) [("k", 0, some 1), ("k", 1, some 2)]
    [("k", 1, some 2), ("k", 0, some 1)] le_rfl (by norm_num) (fun _ => rfl) (by decide)
  have hdiff : (recorded (.init 1 5 : TrustLedger (Fin 2)) (1 / 2)
      [("k", 1, some 2), ("k", 0, some 1)]).tally "k" ≠
      (recorded (.init 1 5 : TrustLedger (Fin 2)) (1 / 2)
        [("k", 0, some 1), ("k", 1, some 2)]).tally "k" := by decide +kernel
  exact hdiff hsame

end QuorumRegister

end Suprime
