import Mathlib.Data.Finset.Card
import Mathlib.Data.Nat.Cast.Order.Ring
import Mathlib.Tactic.Push
import Suprime.Byzantine
import Suprime.PyValue
import Suprime.Run

namespace Suprime
set_option autoImplicit true

/-- Calls of `record_vote` and of `resolve`. -/
inductive VoteAction (ν κ α : Type)
  | recordVote (key : κ) (n : ν) (value : α)
  | resolve (key : κ)

instance : PyNone (PyKey F) := ⟨.none⟩

/-- Two keys of different kinds are taken to be different. -/
instance [DecidableEq F] : PyEq (PyKey F) where
  eq v w := decide (v = w) && decide (w ≠ .float .nan)
  eq_imp _ _ h := of_decide_eq_true (Bool.and_eq_true_iff.1 h).1

namespace QuorumRegister

variable {ν κ α : Type} [DecidableEq ν] [DecidableEq κ] [DecidableEq α] [PyNone α] [PyEq α]

def step (r : QuorumRegister ν κ α) : VoteAction ν κ α → Option (QuorumRegister ν κ α)
  | .recordVote key n value => some (r.recordVote key n value)
  | .resolve key => some (r.resolve key).2

/-- Honest nodes vote the true value, and a key is resolved when all of them have voted and fewer
others have. -/
def HonestMajority (honest : Finset ν) (truth : κ → α) (r : QuorumRegister ν κ α) :
    VoteAction ν κ α → Prop
  | .recordVote key n value => n ∈ honest → value = truth key
  | .resolve key => (∀ n ∈ honest, (r.votesFor key).get n ≠ none) ∧
    (r.votesFor key).items.countP (fun p => p.1 ∉ honest) < honest.card

instance (honest : Finset ν) (truth : κ → α) (r : QuorumRegister ν κ α) :
    (a : VoteAction ν κ α) → Decidable (HonestMajority honest truth r a)
  | .recordVote _ _ _ => inferInstanceAs (Decidable (_ → _))
  | .resolve _ => inferInstanceAs (Decidable (_ ∧ _))

theorem score_set (l : TrustLedger ν) (n m : ν) (x : ℚ) :
    TrustLedger.score { l with scores := l.scores.set n x } m = if m = n then x else l.score m := by
  unfold TrustLedger.score
  dsimp only
  rw [Dict.get_set]
  split
  · rfl
  · rfl

section
omit [DecidableEq α] [PyNone α]

theorem judge_fields (accepted : α) (l : TrustLedger ν) (p : ν × α) :
    (judge accepted l p).initial = l.initial ∧ (judge accepted l p).max = l.max := by
  unfold judge
  split
  · exact ⟨rfl, rfl⟩
  · exact ⟨rfl, rfl⟩

end

def judged (accepted : α) (l : TrustLedger ν) (n : ν) (value : α) : ℚ :=
  if PyEq.eq value accepted then min l.max (l.score n + 1 / 5) else Max.max 0 (l.score n - 1 / 2)

section
omit [DecidableEq α] [PyNone α]

theorem score_judge (accepted : α) (l : TrustLedger ν) (p : ν × α) (m : ν) :
    (judge accepted l p).score m = if m = p.1 then judged accepted l p.1 p.2 else l.score m := by
  unfold judge judged
  split
  · exact score_set l p.1 m _
  · exact score_set l p.1 m _

theorem score_judges (accepted : α) (l : TrustLedger ν) {votes : List (ν × α)}
    (hnd : (votes.map Prod.fst).Nodup) (m : ν) :
    (votes.foldl (judge accepted) l).score m =
      ((votes.lookup m).map (judged accepted l m)).getD (l.score m) := by
  induction votes generalizing l with
  | nil => rfl
  | cons p votes ih =>
    obtain ⟨hp, hnd⟩ := List.nodup_cons.1 hnd
    rw [List.foldl_cons, ih (judge accepted l p) hnd]
    obtain ⟨n, value⟩ := p
    by_cases hm : m = n
    · subst hm
      have hnone : votes.lookup m = none := by
        apply List.lookup_eq_none_iff.2
        intro q hq
        apply bne_iff_ne.2
        intro he
        have hmem : q.1 ∈ votes.map Prod.fst := List.mem_map_of_mem hq
        rw [← he] at hmem
        exact hp hmem
      rw [hnone]
      change (judge accepted l (m, value)).score m = _
      rw [score_judge, if_pos rfl, List.lookup_cons_self]
      rfl
    · have hsame : (judge accepted l (n, value)).score m = l.score m := by
        rw [score_judge, if_neg hm]
      rw [lookup_cons_ne hm, hsame]
      congr 2
      funext v
      unfold judged
      rw [hsame, (judge_fields accepted l (n, value)).2]

theorem judges_fields (accepted : α) (l : TrustLedger ν) (votes : List (ν × α)) :
    (votes.foldl (judge accepted) l).initial = l.initial ∧
      (votes.foldl (judge accepted) l).max = l.max := by
  induction votes generalizing l with
  | nil => exact ⟨rfl, rfl⟩
  | cons p votes ih =>
    obtain ⟨h₁, h₂⟩ := ih (judge accepted l p)
    obtain ⟨h₃, h₄⟩ := judge_fields accepted l p
    exact ⟨h₁.trans h₃, h₂.trans h₄⟩

end

section
omit [PyNone α] [PyEq α]

/-- When honest nodes share the highest weight and vote for one value, every other voter adds at
most that weight to what the others collect. -/
theorem honest_weights {w : ν → ℚ} {s : ℚ} {honest : Finset ν} {t : α} (hs : 0 ≤ s)
    (hhonest : ∀ n ∈ honest, w n = s) (hliar : ∀ n, 0 ≤ w n ∧ w n ≤ s) {votes : List (ν × α)}
    (hvotes : ∀ p ∈ votes, p.1 ∈ honest → p.2 = t) :
    (votes.countP (fun p => p.1 ∈ honest) : ℚ) * s ≤ weightOf w votes t ∧
    (∀ v, v ≠ t → weightOf w votes v ≤ (votes.countP (fun p => p.1 ∉ honest) : ℚ) * s) ∧
    totalWeight w votes ≤
      weightOf w votes t + (votes.countP (fun p => p.1 ∉ honest) : ℚ) * s := by
  induction votes using List.reverseRecOn with
  | nil => simp [weightOf, totalWeight]
  | append_singleton votes p ih =>
    obtain ⟨h₁, h₂, h₃⟩ := ih (fun q hq => hvotes q (List.mem_append_left _ hq))
    have htotal : totalWeight w (votes ++ [p]) = totalWeight w votes + w p.1 := by
      simp [totalWeight]
    obtain ⟨hnn, hle⟩ := hliar p.1
    rw [htotal, weightOf_concat]
    by_cases hp : p.1 ∈ honest
    · have ht : p.2 = t := hvotes p (List.mem_append_right _ List.mem_cons_self) hp
      have hw := hhonest p.1 hp
      simp only [List.countP_append, List.countP_singleton, hp, decide_true, not_true_eq_false,
        decide_false, if_true, Bool.false_eq_true, if_false, Nat.add_zero, Nat.cast_add,
        Nat.cast_one]
      refine ⟨?_, fun v hv => ?_, ?_⟩
      · rw [if_pos ht]
        linarith
      · rw [weightOf_concat, if_neg (fun h => hv (h.symm.trans ht)), add_zero]
        exact h₂ v hv
      · rw [if_pos ht]
        linarith
    · simp only [List.countP_append, List.countP_singleton, hp, decide_false, not_false_eq_true,
        decide_true, if_true, Bool.false_eq_true, if_false, Nat.add_zero, Nat.cast_add,
        Nat.cast_one]
      refine ⟨?_, fun v hv => ?_, ?_⟩
      · split
        · linarith
        · linarith
      · rw [weightOf_concat]
        have hold := h₂ v hv
        split
        · linarith
        · linarith
      · split
        · linarith
        · linarith

end

section
omit [DecidableEq α] [PyNone α] [PyEq α]

theorem countP_honest {honest : Finset ν} {votes : Dict ν α}
    (h : ∀ n ∈ honest, votes.get n ≠ none) :
    votes.items.countP (fun p => p.1 ∈ honest) = honest.card := by
  have hnd : ((votes.items.filter (fun p => p.1 ∈ honest)).map Prod.fst).Nodup :=
    (List.filter_sublist.map _).nodup votes.nodup
  have hset : ((votes.items.filter (fun p => p.1 ∈ honest)).map Prod.fst).toFinset = honest := by
    ext n
    rw [List.mem_toFinset, List.mem_map]
    constructor
    · rintro ⟨p, hp, rfl⟩
      exact of_decide_eq_true (List.mem_filter.1 hp).2
    · intro hn
      obtain ⟨v, hv⟩ := Option.ne_none_iff_exists'.1 (h n hn)
      exact ⟨(n, v), List.mem_filter.2 ⟨Dict.mem_items.2 hv, decide_eq_true hn⟩, rfl⟩
  have hcard : ((votes.items.filter (fun p => p.1 ∈ honest)).map Prod.fst).toFinset.card =
      honest.card := by rw [hset]
  rw [List.toFinset_card_of_nodup hnd, List.length_map, ← List.countP_eq_length_filter] at hcard
  exact hcard

end

/-- The honest nodes share one score, no other node has more, and their votes are true. -/
structure Ok (honest : Finset ν) (truth : κ → α) (q : ℚ) (r : QuorumRegister ν κ α) :
    Prop where
  ledger : r.ledger.initial = 1 ∧ r.ledger.max = 5
  quorum : r.quorum = q
  scores : ∃ s, 1 ≤ s ∧ s ≤ 5 ∧ (∀ n ∈ honest, r.ledger.score n = s) ∧
    ∀ n, r.ledger.score n ≤ s
  votes : ∀ key n value, n ∈ honest → (r.votesFor key).get n = some value → value = truth key

section
omit [DecidableEq α] [PyNone α] [PyEq α]

theorem Ok.init (honest : Finset ν) (truth : κ → α) (q : ℚ) :
    Ok honest truth q (QuorumRegister.init (.init 1 5) q : QuorumRegister ν κ α) where
  ledger := ⟨rfl, rfl⟩
  quorum := rfl
  scores := ⟨1, le_rfl, by norm_num, fun _ _ => rfl, fun _ => le_rfl⟩
  votes _ _ _ _ h := by cases h

theorem Ok.recordVote {r : QuorumRegister ν κ α} (h : Ok honest truth q r)
    (hv : n ∈ honest → value = truth key) : Ok honest truth q (r.recordVote key n value) := by
  refine ⟨h.ledger, h.quorum, h.scores, fun key' n' value' hn' hget => ?_⟩
  have hvotes : (r.recordVote key n value).votesFor key' =
      if key' = key then (r.votesFor key).set n value else r.votesFor key' := by
    unfold votesFor QuorumRegister.recordVote
    dsimp only
    rw [Dict.get_set]
    split
    · rfl
    · rfl
  rw [hvotes] at hget
  by_cases hk : key' = key
  · subst hk
    rw [if_pos rfl, Dict.get_set] at hget
    by_cases hn : n' = n
    · subst hn
      rw [if_pos rfl] at hget
      cases hget
      exact hv hn'
    · rw [if_neg hn] at hget
      exact h.votes key' n' value' hn' hget
  · rw [if_neg hk] at hget
    exact h.votes key' n' value' hn' hget

end

section
omit [PyEq α]

theorem Ok.tally {r : QuorumRegister ν κ α} (h : Ok honest truth q r) (hq : q ≤ 1 / 2)
    (hripe : HonestMajority honest truth r (.resolve key)) : r.tally key = truth key := by
  obtain ⟨hall, hfew⟩ := hripe
  obtain ⟨s, hs1, hs5, hhonest, hmost⟩ := h.scores
  have hs0 : 0 ≤ s := by linarith
  have hw : ∀ n ∈ honest, r.ledger.weight n = s := by
    intro n hn
    rw [TrustLedger.weight, hhonest n hn]
    exact max_eq_right hs0
  have hw' : ∀ n, 0 ≤ r.ledger.weight n ∧ r.ledger.weight n ≤ s :=
    fun n => ⟨r.ledger.weight_nonneg n, max_le hs0 (hmost n)⟩
  have hvotes : ∀ p ∈ (r.votesFor key).items, p.1 ∈ honest → p.2 = truth key :=
    fun p hp hn => h.votes key p.1 p.2 hn (Dict.mem_items.1 hp)
  obtain ⟨htrue, hfalse, htotal⟩ := honest_weights hs0 hw hw' hvotes
  rw [countP_honest hall] at htrue
  have hless : ((r.votesFor key).items.countP (fun p => p.1 ∉ honest) : ℚ) * s + s ≤
      (honest.card : ℚ) * s := by
    have hcast : ((r.votesFor key).items.countP (fun p => p.1 ∉ honest) : ℚ) + 1 ≤ honest.card := by
      exact_mod_cast hfew
    nlinarith
  have hpos : 0 < weightOf r.ledger.weight (r.votesFor key).items (truth key) := by
    have hnn : (0 : ℚ) ≤ ((r.votesFor key).items.countP (fun p => p.1 ∉ honest) : ℚ) * s :=
      mul_nonneg (Nat.cast_nonneg _) hs0
    linarith
  have hvoted : truth key ∈ (r.votesFor key).items.map Prod.snd := by
    obtain ⟨n, hn⟩ := Finset.card_pos.1 (Nat.zero_lt_of_lt hfew)
    obtain ⟨v, hv⟩ := Option.ne_none_iff_exists'.1 (hall n hn)
    have hmem := Dict.mem_items.2 hv
    exact hvotes _ hmem hn ▸ List.mem_map_of_mem hmem
  have hle : weightOf r.ledger.weight (r.votesFor key).items (truth key) ≤
      totalWeight r.ledger.weight (r.votesFor key).items := by
    unfold weightOf totalWeight
    apply List.Sublist.sum_le_sum (List.filter_sublist.map _)
    intro x hx
    obtain ⟨p, _, rfl⟩ := List.mem_map.1 hx
    exact r.ledger.weight_nonneg p.1
  have hne : (r.votesFor key).items ≠ [] := by
    intro hnil
    rw [hnil] at hvoted
    cases hvoted
  obtain ⟨best, hbest⟩ := exists_argmax (w := r.ledger.weight) hne
  obtain ⟨_, heq, hmax⟩ := argmax_totals hbest
  have hwin := hmax _ hvoted
  have hbv : best.1 = truth key := by
    by_contra hdiff
    have hsmall := hfalse best.1 hdiff
    rw [← heq] at hsmall
    linarith
  have hquorum : r.quorum * totalWeight r.ledger.weight (r.votesFor key).items ≤ best.2 := by
    have hmul : r.quorum * totalWeight r.ledger.weight (r.votesFor key).items ≤
        1 / 2 * totalWeight r.ledger.weight (r.votesFor key).items :=
      mul_le_mul_of_nonneg_right (h.quorum ▸ hq) (hpos.trans_le hle).le
    linarith
  rw [QuorumRegister.tally, if_neg (by simpa using hne), plurality,
    if_neg (not_le.2 (hpos.trans_le hle)), hbest]
  dsimp only
  rw [if_pos hquorum, hbv]

end

theorem Ok.resolve {r : QuorumRegister ν κ α} (h : Ok honest truth q r) (hq : q ≤ 1 / 2)
    (htruth : ∀ k, truth k ≠ pyNone)
    (hripe : HonestMajority honest truth r (.resolve key))
    (hself : PyEq.eq (truth key) (truth key) = true) :
    (r.resolve key).1 = truth key ∧ Ok honest truth q (r.resolve key).2 := by
  have htally := h.tally hq hripe
  unfold QuorumRegister.resolve
  dsimp only
  rw [htally, if_neg (htruth key)]
  refine ⟨rfl, ?_⟩
  obtain ⟨hinit, hmax⟩ := judges_fields (truth key) r.ledger (r.votesFor key).items
  obtain ⟨s, hs1, hs5, hhonest, hmost⟩ := h.scores
  have hscore := score_judges (truth key) r.ledger (r.votesFor key).nodup
  refine ⟨⟨hinit.trans h.ledger.1, hmax.trans h.ledger.2⟩, h.quorum,
    ⟨min 5 (s + 1 / 5), ?_, min_le_left _ _, fun n hn => ?_, fun n => ?_⟩, h.votes⟩
  · exact le_min (by norm_num) (by linarith)
  · obtain ⟨v, hv⟩ := Option.ne_none_iff_exists'.1 (hripe.1 n hn)
    have hv' : (r.votesFor key).items.lookup n = some v := hv
    dsimp only
    rw [hscore, hv', Option.map_some, Option.getD_some, judged,
      if_pos ((PyEq.eq_iff hself).2 (h.votes key n v hn hv)), h.ledger.2, hhonest n hn]
  · dsimp only
    rw [hscore]
    have hn := hmost n
    cases hv : (r.votesFor key).items.lookup n with
    | none => exact le_min (by linarith [hmost n] : r.ledger.score n ≤ 5) (by
        change r.ledger.score n ≤ s + 1 / 5
        linarith)
    | some v =>
      rw [Option.map_some, Option.getD_some, judged]
      split
      · rw [h.ledger.2]
        exact min_le_min le_rfl (by linarith)
      · exact max_le (le_min (by norm_num) (by linarith)) (le_min (by linarith) (by linarith))

/-- The true value of the key that is resolved is equal to itself. -/
def EqualsItself (truth : κ → α) : VoteAction ν κ α → Prop
  | .recordVote _ _ _ => True
  | .resolve key => PyEq.eq (truth key) (truth key) = true

theorem Ok.step {r r' : QuorumRegister ν κ α} (h : Ok honest truth q r)
    (hq : q ≤ 1 / 2) (htruth : ∀ k, truth k ≠ pyNone)
    (hC : HonestMajority honest truth r a) (hself : EqualsItself truth a)
    (hs : r.step a = some r') : Ok honest truth q r' := by
  cases a with
  | recordVote key n value =>
    cases hs
    exact h.recordVote hC
  | resolve key =>
    cases hs
    exact (h.resolve hq htruth hC hself).2

/-- With an honest majority on every key that is resolved, and true values that are equal to
themselves, every `resolve` returns the true value, and after it no other node has a higher score
than an honest one. -/
theorem majority_wins_of_equalsItself {honest : Finset ν} {truth : κ → α} {quorum : ℚ}
    {r : QuorumRegister ν κ α} (hq : quorum ≤ 1 / 2) (htruth : ∀ k, truth k ≠ pyNone)
    (hrun : Run QuorumRegister.step (QuorumRegister.init (.init 1 5) quorum) past r)
    (hC : ∀ p ∈ past, HonestMajority honest truth p.1 p.2)
    (hself : ∀ p ∈ past, EqualsItself truth p.2) :
    ∀ t key, (t, VoteAction.resolve key) ∈ past → (t.resolve key).1 = truth key ∧
      ∀ liar, liar ∉ honest → ∀ n ∈ honest,
        (t.resolve key).2.ledger.score liar ≤ (t.resolve key).2.ledger.score n := by
  intro t key hmem
  obtain ⟨pre, post, t', hpast, hpre, _, _⟩ := hrun.of_mem_past hmem
  have hsub : ∀ p ∈ pre, HonestMajority honest truth p.1 p.2 ∧ EqualsItself truth p.2 := by
    intro p hp
    have hp' : p ∈ past := hpast ▸ List.mem_append_right _ (List.mem_cons_of_mem _ hp)
    exact ⟨hC p hp', hself p hp'⟩
  have hok : Ok honest truth quorum t :=
    hpre.invariant (C := fun r a => HonestMajority honest truth r a ∧ EqualsItself truth a) hsub
      (.init honest truth quorum)
      (fun _ _ _ hs hc hstep => hs.step hq htruth hc.1 hc.2 hstep)
  obtain ⟨hval, hok'⟩ := hok.resolve hq htruth (hC _ hmem) (hself _ hmem)
  obtain ⟨s, _, _, hhonest, hmost⟩ := hok'.scores
  refine ⟨hval, fun liar _ n hn => ?_⟩
  rw [hhonest n hn]
  exact hmost liar

/-- Two honest nodes and a liar that tells the truth once. -/
def liarRounds : List (VoteAction ℕ Bool (Option ℕ)) :=
  [.recordVote true 2 (some 1), .recordVote true 0 (some 1), .recordVote true 1 (some 1),
    .resolve true, .recordVote false 2 none, .recordVote false 1 (some 7),
    .recordVote false 0 (some 7), .resolve false]

theorem majority_wins_of_equalsItself_over_liar : ∃ past r, Run QuorumRegister.step
    (QuorumRegister.init (.init 1 5) (1 / 2) : QuorumRegister ℕ Bool (Option ℕ)) past r ∧
    ∀ t key, (t, VoteAction.resolve key) ∈ past →
      (t.resolve key).1 = (if key then some 1 else some 7) ∧
      ∀ liar, liar ∉ ({0, 1} : Finset ℕ) → ∀ n ∈ ({0, 1} : Finset ℕ),
        (t.resolve key).2.ledger.score liar ≤ (t.resolve key).2.ledger.score n := by
  obtain ⟨past, r, hr, hC, _⟩ := exists_run_of_execWhere QuorumRegister.step
    (HonestMajority ({0, 1} : Finset ℕ) (fun key => if key then some 1 else some 7))
    (QuorumRegister.init (.init 1 5) (1 / 2) : QuorumRegister ℕ Bool (Option ℕ)) liarRounds
    (fun r => r.ledger.score 2) (7 / 10) (by decide +kernel)
  refine ⟨past, r, hr, majority_wins_of_equalsItself le_rfl ?_ hr hC ?_⟩
  · intro key
    cases key with
    | true => exact Option.some_ne_none _
    | false => exact Option.some_ne_none _
  · rintro ⟨t, a⟩ -
    cases a with
    | recordVote key n value => trivial
    | resolve key => exact decide_eq_true rfl

/-- The truth is a NaN. Honest nodes are penalised for it until nothing is accepted. -/
theorem nan_truth_is_punished : ∃ past r, Run QuorumRegister.step
    (QuorumRegister.init (.init 1 5) (1 / 2) : QuorumRegister ℕ Bool (PyKey ℕ)) past r ∧
    (∀ p ∈ past, HonestMajority {0, 1} (fun _ => .float .nan) p.1 p.2) ∧
    HonestMajority {0, 1} (fun _ => .float .nan) r (.resolve true) ∧
    (r.resolve true).1 = pyNone ∧
    (r.resolve true).2.ledger.score 0 < (r.resolve true).2.ledger.score 2 := by
  obtain ⟨past, r, hr, hC, h⟩ := exists_run_of_execWhere QuorumRegister.step
    (HonestMajority ({0, 1} : Finset ℕ) (fun _ => .float .nan))
    (QuorumRegister.init (.init 1 5) (1 / 2) : QuorumRegister ℕ Bool (PyKey ℕ))
    [.recordVote true 0 (.float .nan), .recordVote true 1 (.float .nan), .resolve true,
      .resolve true]
    (fun r => decide (HonestMajority {0, 1} (fun _ => .float .nan) r (.resolve true) ∧
      (r.resolve true).1 = pyNone ∧
      (r.resolve true).2.ledger.score 0 < (r.resolve true).2.ledger.score 2)) true
    (by decide +kernel)
  exact ⟨past, r, hr, hC, of_decide_eq_true h⟩

end QuorumRegister

end Suprime
