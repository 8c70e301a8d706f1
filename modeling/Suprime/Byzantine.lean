import Mathlib.Data.List.MinMax
import Mathlib.Data.List.Perm.Basic
import Mathlib.Algebra.BigOperators.Group.List.Basic
import Mathlib.Algebra.Order.BigOperators.Group.List
import Mathlib.Data.Rat.Defs
import Mathlib.Algebra.Order.Ring.Rat
import Mathlib.Tactic.Linarith
import Suprime.Dict
import Suprime.Store

namespace Suprime
set_option autoImplicit true

/-- Per-node reputation. -/
structure TrustLedger (ν : Type) where
  scores : Dict ν ℚ
  initial : ℚ
  max : ℚ

namespace TrustLedger

variable {ν : Type} [DecidableEq ν]

def init (initial maxScore : ℚ) : TrustLedger ν := ⟨.empty, initial, maxScore⟩

def score (l : TrustLedger ν) (nodeId : ν) : ℚ := (l.scores.get nodeId).getD l.initial

def weight (l : TrustLedger ν) (nodeId : ν) : ℚ := Max.max 0 (l.score nodeId)

def reward (l : TrustLedger ν) (nodeId : ν) (amount : ℚ) : TrustLedger ν :=
  { l with scores := l.scores.set nodeId (min l.max (l.score nodeId + amount)) }

def penalize (l : TrustLedger ν) (nodeId : ν) (amount : ℚ) : TrustLedger ν :=
  { l with scores := l.scores.set nodeId (Max.max 0 (l.score nodeId - amount)) }

theorem weight_nonneg (l : TrustLedger ν) (nodeId : ν) : 0 ≤ l.weight nodeId := le_max_left _ _

end TrustLedger

/-- Python's `==` on values that can be keys of a dict. Equal values are one key, and a NaN is one
key without being equal to itself. -/
class PyEq (α : Type) where
  eq : α → α → Bool
  eq_imp : ∀ v w, eq v w = true → v = w

/-- The equality of values that are all equal to themselves. -/
instance (priority := low) pyEqOfDecidableEq [DecidableEq α] : PyEq α :=
  ⟨fun v w => decide (v = w), fun _ _ => of_decide_eq_true⟩

theorem PyEq.eq_iff [PyEq α] {v w : α} (h : PyEq.eq w w = true) : PyEq.eq v w = true ↔ v = w :=
  ⟨PyEq.eq_imp v w, fun he => he ▸ h⟩

/-- The votes of each key. Values are equal when they are one key of a dict. -/
structure QuorumRegister (ν κ α : Type) where
  ledger : TrustLedger ν
  quorum : ℚ
  votes : Dict κ (Dict ν α)

namespace QuorumRegister

variable {ν κ α : Type} [DecidableEq ν] [DecidableEq κ] [DecidableEq α] [PyNone α]

def init (ledger : TrustLedger ν) (quorum : ℚ) : QuorumRegister ν κ α := ⟨ledger, quorum, .empty⟩

def votesFor (r : QuorumRegister ν κ α) (key : κ) : Dict ν α := (r.votes.get key).getD .empty

def recordVote (r : QuorumRegister ν κ α) (key : κ) (nodeId : ν) (value : α) :
    QuorumRegister ν κ α :=
  { r with votes := r.votes.set key ((r.votesFor key).set nodeId value) }

/-- The weight that each value collects, in the order in which the values turn up. -/
def totals (w : ν → ℚ) (votes : List (ν × α)) : Dict α ℚ :=
  votes.foldl (fun d p => d.set p.2 ((d.get p.2).getD 0 + w p.1)) .empty

def totalWeight (w : ν → ℚ) (votes : List (ν × α)) : ℚ := (votes.map (fun p => w p.1)).sum

/-- The first value with the greatest weight, if it meets the quorum. -/
def plurality (w : ν → ℚ) (quorum : ℚ) (votes : List (ν × α)) : α :=
  if totalWeight w votes ≤ 0 then pyNone
  else match (totals w votes).items.argmax Prod.snd with
    | none => pyNone
    | some best => if quorum * totalWeight w votes ≤ best.2 then best.1 else pyNone

def tally (r : QuorumRegister ν κ α) (key : κ) : α :=
  if (r.votesFor key).items.isEmpty then pyNone
  else plurality r.ledger.weight r.quorum (r.votesFor key).items

/-- The rewards and penalties of `resolve`. -/
def judge [PyEq α] (accepted : α) (l : TrustLedger ν) (p : ν × α) : TrustLedger ν :=
  if PyEq.eq p.2 accepted then l.reward p.1 (1 / 5) else l.penalize p.1 (1 / 2)

def resolve [PyEq α] (r : QuorumRegister ν κ α) (key : κ) : α × QuorumRegister ν κ α :=
  let accepted := r.tally key
  if accepted = pyNone then (pyNone, r)
  else (accepted, { r with ledger := (r.votesFor key).items.foldl (judge accepted) r.ledger })

def weightOf (w : ν → ℚ) (votes : List (ν × α)) (v : α) : ℚ :=
  ((votes.filter (fun p => p.2 = v)).map (fun p => w p.1)).sum

section
omit [DecidableEq ν] [PyNone α]

theorem totals_concat (w : ν → ℚ) (votes : List (ν × α)) (p : ν × α) :
    totals w (votes ++ [p]) =
      (totals w votes).set p.2 (((totals w votes).get p.2).getD 0 + w p.1) := by
  rw [totals, List.foldl_append]
  rfl

theorem weightOf_concat (w : ν → ℚ) (votes : List (ν × α)) (p : ν × α) (v : α) :
    weightOf w (votes ++ [p]) v = weightOf w votes v + if p.2 = v then w p.1 else 0 := by
  unfold weightOf
  rw [List.filter_append, List.map_append, List.sum_append]
  by_cases hv : p.2 = v
  · simp [hv]
  · simp [hv]

theorem weightOf_of_notMem (w : ν → ℚ) {votes : List (ν × α)} {v : α}
    (h : v ∉ votes.map Prod.snd) : weightOf w votes v = 0 := by
  have hnil : votes.filter (fun p => p.2 = v) = [] := by
    apply List.filter_eq_nil_iff.2
    intro p hp he
    exact h (List.mem_map.2 ⟨p, hp, of_decide_eq_true he⟩)
  rw [weightOf, hnil]
  rfl

theorem get_totals (w : ν → ℚ) (votes : List (ν × α)) (v : α) :
    (totals w votes).get v =
      if v ∈ votes.map Prod.snd then some (weightOf w votes v) else none := by
  induction votes using List.reverseRecOn with
  | nil => rfl
  | append_singleton votes p ih =>
    rw [totals_concat, Dict.get_set, weightOf_concat]
    by_cases hv : v = p.2
    · subst hv
      have hold : ((totals w votes).get p.2).getD 0 = weightOf w votes p.2 := by
        rw [ih]
        split
        · rfl
        · rename_i hmem
          exact (weightOf_of_notMem w hmem).symm
      rw [hold, if_pos rfl, if_pos rfl, if_pos (by simp)]
    · have hmem : v ∈ (votes ++ [p]).map Prod.snd ↔ v ∈ votes.map Prod.snd := by
        rw [List.map_append, List.mem_append, List.map_singleton, List.mem_singleton]
        exact or_iff_left hv
      rw [if_neg hv, ih, if_neg (Ne.symm hv), add_zero]
      by_cases h : v ∈ votes.map Prod.snd
      · rw [if_pos h, if_pos (hmem.2 h)]
      · rw [if_neg h, if_neg (fun h' => h (hmem.1 h'))]

theorem mem_totals {w : ν → ℚ} {votes : List (ν × α)} {p : α × ℚ} :
    p ∈ (totals w votes).items ↔ p.1 ∈ votes.map Prod.snd ∧ p.2 = weightOf w votes p.1 := by
  obtain ⟨v, x⟩ := p
  rw [Dict.mem_items, get_totals]
  split
  · rename_i h
    simp [h, eq_comm]
  · rename_i h
    simp [h]

theorem weightOf_add_le {w : ν → ℚ} (hw : ∀ n, 0 ≤ w n) (votes : List (ν × α)) {v v' : α}
    (hv : v ≠ v') : weightOf w votes v + weightOf w votes v' ≤ totalWeight w votes := by
  induction votes using List.reverseRecOn with
  | nil => exact le_of_eq (add_zero 0)
  | append_singleton votes p ih =>
    have htotal : totalWeight w (votes ++ [p]) = totalWeight w votes + w p.1 := by
      simp [totalWeight]
    rw [weightOf_concat, weightOf_concat, htotal]
    have hp := hw p.1
    by_cases h : p.2 = v
    · rw [if_pos h, if_neg (fun h' => hv (h.symm.trans h'))]
      linarith
    · rw [if_neg h]
      split
      · linarith
      · linarith

theorem argmax_totals {w : ν → ℚ} {votes : List (ν × α)} {best : α × ℚ}
    (h : (totals w votes).items.argmax Prod.snd = some best) :
    best.1 ∈ votes.map Prod.snd ∧ best.2 = weightOf w votes best.1 ∧
      ∀ v, v ∈ votes.map Prod.snd → weightOf w votes v ≤ best.2 := by
  obtain ⟨hmem, heq⟩ := mem_totals.1 (List.argmax_mem h)
  refine ⟨hmem, heq, fun v hv => ?_⟩
  have hv' : (v, weightOf w votes v) ∈ (totals w votes).items := mem_totals.2 ⟨hv, rfl⟩
  exact List.le_of_mem_argmax (f := Prod.snd) hv' h

theorem exists_argmax {w : ν → ℚ} {votes : List (ν × α)} (h : votes ≠ []) :
    ∃ best, (totals w votes).items.argmax Prod.snd = some best := by
  apply Option.ne_none_iff_exists'.1
  intro hnone
  have hnil := List.argmax_eq_none.1 hnone
  obtain ⟨p, hp⟩ := List.exists_mem_of_ne_nil votes h
  have hmem : (p.2, weightOf w votes p.2) ∈ (totals w votes).items :=
    mem_totals.2 ⟨List.mem_map_of_mem hp, rfl⟩
  rw [hnil] at hmem
  cases hmem

end

end QuorumRegister

end Suprime
