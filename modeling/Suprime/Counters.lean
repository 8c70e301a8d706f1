import Mathlib.Algebra.BigOperators.Group.Finset.Basic
import Mathlib.Algebra.BigOperators.Group.Finset.Piecewise
import Mathlib.Algebra.Order.BigOperators.Group.Finset
import Mathlib.Algebra.Ring.Int.Defs
import Suprime.JoinLoop
import Suprime.Replicas

namespace Suprime
set_option autoImplicit true

structure GCounter (ν : Type) where
  nodeId : ν
  counts : Dict ν ℤ

namespace GCounter

variable {ν : Type} [DecidableEq ν]

def init (n : ν) : GCounter ν := ⟨n, .empty⟩

def count (c : GCounter ν) (m : ν) : ℤ := (c.counts.get m).getD 0

def increment (c : GCounter ν) (amount : ℤ) : Option (GCounter ν) :=
  if amount < 0 then none
  else some { c with counts := c.counts.set c.nodeId (c.count c.nodeId + amount) }

def value (c : GCounter ν) : ℤ := c.counts.values.sum

/-- One turn of the loop of `merge`. -/
def mergeCount (acc : GCounter ν × Bool) (p : ν × ℤ) : GCounter ν × Bool :=
  if p.2 > acc.1.count p.1 then ({ acc.1 with counts := acc.1.counts.set p.1 p.2 }, true) else acc

def merge (c other : GCounter ν) : GCounter ν × Bool :=
  other.counts.items.foldl mergeCount (c, false)

def digest (c : GCounter ν) : Dict ν ℤ := c.counts

def applyDigest [Inhabited ν] (c : GCounter ν) (d : Dict ν ℤ) : GCounter ν × Bool :=
  c.merge ⟨default, d⟩

theorem count_mergeCount (acc : GCounter ν × Bool) (p : ν × ℤ) (m : ν) :
    (mergeCount acc p).1.count m =
      if m = p.1 then max (acc.1.count m) p.2 else acc.1.count m := by
  unfold mergeCount
  by_cases hgt : p.2 > acc.1.count p.1
  · rw [if_pos hgt]
    by_cases hm : m = p.1
    · subst hm
      rw [if_pos rfl, max_eq_right hgt.le]
      simp [count]
    · rw [if_neg hm]
      simp [count, Dict.get_set_ne _ _ hm]
  · rw [if_neg hgt]
    by_cases hm : m = p.1
    · subst hm
      rw [if_pos rfl, max_eq_left (not_lt.1 hgt)]
    · rw [if_neg hm]

theorem joinLoop : JoinLoop (mergeCount (ν := ν)) count max where
  view_self acc p := by rw [count_mergeCount, if_pos rfl]
  view_ne acc p k hk := by rw [count_mergeCount, if_neg hk]
  flag acc p := by
    unfold mergeCount
    by_cases hgt : p.2 > acc.1.count p.1
    · rw [if_pos hgt, max_eq_right hgt.le]
      exact iff_of_true rfl (.inr (ne_of_gt hgt))
    · rw [if_neg hgt, max_eq_left (not_lt.1 hgt)]
      simp

theorem count_merge (c other : GCounter ν) (m : ν) (h : 0 ≤ c.count m) :
    (c.merge other).1.count m = max (c.count m) (other.count m) := by
  rw [merge, joinLoop.view_foldl other.counts.nodup]
  unfold count Dict.get at *
  cases other.counts.items.lookup m with
  | none => exact (max_eq_left h).symm
  | some v => rfl

theorem nodeId_merge (c other : GCounter ν) : (c.merge other).1.nodeId = c.nodeId := by
  have hfold : ∀ (l : List (ν × ℤ)) (acc : GCounter ν × Bool),
      (l.foldl mergeCount acc).1.nodeId = acc.1.nodeId := by
    intro l
    induction l with
    | nil => exact fun _ => rfl
    | cons p l ih =>
      intro acc
      rw [List.foldl_cons, ih, mergeCount]
      by_cases hgt : p.2 > acc.1.count p.1
      · rw [if_pos hgt]
      · rw [if_neg hgt]
  exact hfold _ _

theorem increment_spec {c c' : GCounter ν} (h : c.increment amount = some c') :
    0 ≤ amount ∧ c'.nodeId = c.nodeId ∧
      ∀ m, c'.count m = c.count m + if m = c.nodeId then amount else 0 := by
  unfold increment at h
  by_cases hneg : amount < 0
  · rw [if_pos hneg] at h
    cases h
  · rw [if_neg hneg] at h
    cases h
    refine ⟨not_lt.1 hneg, rfl, fun m => ?_⟩
    by_cases hm : m = c.nodeId
    · rw [if_pos hm, hm]
      simp [count]
    · rw [if_neg hm, add_zero]
      simp [count, Dict.get_set_ne _ _ hm]

theorem value_eq_sum (c : GCounter ν) (t : Finset ν) (h : ∀ m ∈ c.counts.keys, m ∈ t) :
    c.value = ∑ m ∈ t, c.count m := by
  have hkeys : c.value = ∑ m ∈ c.counts.keys.toFinset, c.count m := by
    rw [Dict.keys, List.sum_toFinset _ c.counts.nodup, List.map_map, value, Dict.values]
    congr 1
    apply List.map_congr_left
    rintro ⟨k, v⟩ hp
    simp [count, Dict.mem_items.1 hp]
  rw [hkeys]
  apply Finset.sum_subset
  · intro m hm
    exact h m (List.mem_toFinset.1 hm)
  · intro m _ hm
    rw [List.mem_toFinset, Dict.mem_keys] at hm
    cases hget : c.counts.get m with
    | none => rw [count, hget, Option.getD_none]
    | some v => exact absurd ⟨v, hget⟩ hm

end GCounter

structure PNCounter (ν : Type) where
  p : GCounter ν
  n : GCounter ν

inductive CounterOp
  | increment (amount : ℤ)
  | decrement (amount : ℤ)

namespace PNCounter

variable {ν : Type} [DecidableEq ν]

def init (m : ν) : PNCounter ν := ⟨.init m, .init m⟩

def increment (c : PNCounter ν) (amount : ℤ) : Option (PNCounter ν) := do
  let p ← c.p.increment amount
  some { c with p := p }

def decrement (c : PNCounter ν) (amount : ℤ) : Option (PNCounter ν) := do
  let n ← c.n.increment amount
  some { c with n := n }

def value (c : PNCounter ν) : ℤ := c.p.value - c.n.value

def merge (c other : PNCounter ν) : PNCounter ν × Bool :=
  let a := c.p.merge other.p
  let b := c.n.merge other.n
  (⟨a.1, b.1⟩, a.2 || b.2)

/-- The two dicts of a digest. -/
structure Digest (ν : Type) where
  p : Dict ν ℤ
  n : Dict ν ℤ

def digest (c : PNCounter ν) : Digest ν := ⟨c.p.digest, c.n.digest⟩

def applyDigest [Inhabited ν] (c : PNCounter ν) (d : Digest ν) : PNCounter ν × Bool :=
  let a := c.p.applyDigest d.p
  let b := c.n.applyDigest d.n
  (⟨a.1, b.1⟩, a.2 || b.2)

def perform (c : PNCounter ν) : CounterOp → Option (PNCounter ν × Unit)
  | .increment amount => (c.increment amount).map (·, ())
  | .decrement amount => (c.decrement amount).map (·, ())

def replicaType [Inhabited ν] : ReplicaType ν CounterOp Unit (PNCounter ν) where
  init := init
  perform := perform
  merge c other := (c.merge other).1
  absorb c other := (c.applyDigest other.digest).1

end PNCounter

/-- What an operation adds to the counts of increments. -/
def CounterOp.added : CounterOp → ℤ
  | .increment amount => amount
  | .decrement _ => 0

/-- What an operation adds to the counts of decrements. -/
def CounterOp.taken : CounterOp → ℤ
  | .increment _ => 0
  | .decrement amount => amount

def amountAt (f : ω → ℤ) (log : List (Event ν ω ρ)) (i : ℕ) : ℤ :=
  ((log[i]?).map (fun e => f e.op)).getD 0

theorem amountAt_concat {log : List (Event ν ω ρ)} (h : i < log.length) (e : Event ν ω ρ) :
    amountAt f (log ++ [e]) i = amountAt f log i := by
  rw [amountAt, List.getElem?_append_left h, amountAt]

theorem amountAt_length (f : ω → ℤ) (log : List (Event ν ω ρ)) (e : Event ν ω ρ) :
    amountAt f (log ++ [e]) log.length = f e.op := by
  simp [amountAt]

theorem sum_amountAt_range (f : ω → ℤ) (log : List (Event ν ω ρ)) :
    ∑ i ∈ Finset.range log.length, amountAt f log i = (log.map (fun e => f e.op)).sum := by
  induction log using List.reverseRecOn with
  | nil => rfl
  | append_singleton log e ih =>
    rw [List.length_append, List.length_singleton, Finset.sum_range_succ, amountAt_length,
      List.map_append, List.sum_append, ← ih]
    congr 1
    · apply Finset.sum_congr rfl
      intro i hi
      exact amountAt_concat (Finset.mem_range.1 hi) e
    · simp

/-- A counter of a node whose counts are the totals of what the known operations of every node
add. -/
structure GCounter.Totals [DecidableEq ν] (f : ω → ℤ) (n : ν) (log : List (Event ν ω ρ))
    (H : Finset ℕ) (c : GCounter ν) : Prop where
  nodeId : c.nodeId = n
  nonneg : ∀ i ∈ H, 0 ≤ amountAt f log i
  count : ∀ m, c.count m = ∑ i ∈ eventsOf log H m, amountAt f log i

namespace GCounter

variable {ν ω ρ : Type} [DecidableEq ν] {f : ω → ℤ} {log : List (Event ν ω ρ)}

theorem Totals.init (f : ω → ℤ) (n : ν) :
    Totals f n ([] : List (Event ν ω ρ)) ∅ (GCounter.init n) where
  nodeId := rfl
  nonneg _ h := by cases h
  count _ := rfl

theorem Totals.concat (h : Totals f n log H c) (hH : Causal log H) (e : Event ν ω ρ) :
    Totals f n (log ++ [e]) H c where
  nodeId := h.nodeId
  nonneg i hi := by
    rw [amountAt_concat (hH.lt i hi)]
    exact h.nonneg i hi
  count m := by
    rw [h.count m, eventsOf_concat hH.lt]
    apply Finset.sum_congr rfl
    intro i hi
    exact (amountAt_concat (hH.lt i (mem_eventsOf.1 hi).1) e).symm

theorem Totals.insert {op : ω} (h : Totals f n log H c) (hH : Causal log H) (hop : 0 ≤ f op)
    (hid : c'.nodeId = c.nodeId)
    (hcount : ∀ m, c'.count m = c.count m + if m = n then f op else 0) (out : ρ) :
    Totals f n (log ++ [⟨n, op, out, H⟩]) (insert log.length H) c' where
  nodeId := hid.trans h.nodeId
  nonneg i hi := by
    rcases Finset.mem_insert.1 hi with rfl | hi
    · rw [amountAt_length]
      exact hop
    · rw [amountAt_concat (hH.lt i hi)]
      exact h.nonneg i hi
  count m := by
    have hold := (h.concat hH ⟨n, op, out, H⟩).count m
    rw [eventsOf_concat hH.lt] at hold
    rw [hcount m, hold, eventsOf_insert hH]
    by_cases hm : m = n
    · have hfresh : log.length ∉ eventsOf log H m :=
        fun hi => Nat.lt_irrefl _ (hH.lt _ (mem_eventsOf.1 hi).1)
      rw [if_pos hm, if_pos hm, Finset.sum_insert hfresh, amountAt_length, add_comm]
    · rw [if_neg hm, if_neg hm, add_zero]

theorem Totals.count_nonneg (h : Totals f n log H c) (m : ν) : 0 ≤ c.count m := by
  rw [h.count m]
  apply Finset.sum_nonneg
  intro i hi
  exact h.nonneg i (mem_eventsOf.1 hi).1

theorem Totals.count_le (h : Totals f n log H c) (h' : Totals f n' log K c')
    (hsub : eventsOf log H m ⊆ eventsOf log K m) : c.count m ≤ c'.count m := by
  rw [h.count m, h'.count m]
  apply Finset.sum_le_sum_of_subset_of_nonneg hsub
  intro i hi _
  exact h'.nonneg i (mem_eventsOf.1 hi).1

theorem Totals.merge (hl : CausalLog log) (hH : Causal log H) (hK : Causal log K)
    (h : Totals f n log H c) (h' : Totals f n' log K c') :
    Totals f n log (H ∪ K) (c.merge c').1 where
  nodeId := (nodeId_merge c c').trans h.nodeId
  nonneg i hi := by
    rcases Finset.mem_union.1 hi with hi | hi
    · exact h.nonneg i hi
    · exact h'.nonneg i hi
  count m := by
    rw [count_merge c c' m (h.count_nonneg m), eventsOf_union]
    rcases eventsOf_chain hl hH hK m with hsub | hsub
    · rw [max_eq_right (h.count_le h' hsub), Finset.union_eq_right.2 hsub]
      exact h'.count m
    · rw [max_eq_left (h'.count_le h hsub), Finset.union_eq_left.2 hsub]
      exact h.count m

theorem Totals.ofDigest [Inhabited ν] (h : Totals f n log H c) :
    Totals f default log H ⟨default, c.digest⟩ where
  nodeId := rfl
  nonneg := h.nonneg
  count := h.count

theorem Totals.value_eq (h : Totals f n log H c) (hH : Causal log H) :
    c.value = ∑ i ∈ H, amountAt f log i := by
  let nodes : Finset ν := (log.map Event.node).toFinset
  rw [c.value_eq_sum (nodes ∪ c.counts.keys.toFinset)
    (fun m hm => Finset.mem_union_right _ (List.mem_toFinset.2 hm))]
  have hmaps : ∀ i ∈ H, (log[i]?).map Event.node ∈
      (nodes ∪ c.counts.keys.toFinset).map Function.Embedding.some := by
    intro i hi
    have hlt := hH.lt i hi
    rw [List.getElem?_eq_getElem hlt, Option.map_some]
    apply Finset.mem_map_of_mem Function.Embedding.some
    apply Finset.mem_union_left
    exact List.mem_toFinset.2 (List.mem_map_of_mem (List.getElem_mem hlt))
  rw [← Finset.sum_fiberwise_of_maps_to hmaps, Finset.sum_map]
  apply Finset.sum_congr rfl
  intro m _
  exact h.count m

end GCounter

namespace PNCounter

variable {ν : Type} [DecidableEq ν] [Inhabited ν] {n : ν}

def Totals (n : ν) (log : List (Event ν CounterOp Unit)) (H : Finset ℕ) (c : PNCounter ν) : Prop :=
  c.p.Totals CounterOp.added n log H ∧ c.n.Totals CounterOp.taken n log H

section
omit [Inhabited ν]

theorem Totals.perform {log : List (Event ν CounterOp Unit)} (h : Totals n log H c)
    (hH : Causal log H) (hp : c.perform op = some (c', out)) :
    Totals n (log ++ [⟨n, op, out, H⟩]) (insert log.length H) c' := by
  cases op with
  | increment amount =>
    obtain ⟨c₁, hc₁, he⟩ := Option.map_eq_some_iff.1 hp
    obtain ⟨p, hinc, hc₁⟩ := Option.bind_eq_some_iff.1 hc₁
    cases hc₁
    cases he
    obtain ⟨hpos, hid, hcount⟩ := GCounter.increment_spec hinc
    rw [h.1.nodeId] at hcount
    have hpos : 0 ≤ (CounterOp.increment amount).added := hpos
    refine ⟨h.1.insert hH hpos hid hcount (), h.2.insert hH le_rfl rfl (fun m => ?_) ()⟩
    simp [CounterOp.taken]
  | decrement amount =>
    obtain ⟨c₁, hc₁, he⟩ := Option.map_eq_some_iff.1 hp
    obtain ⟨p, hinc, hc₁⟩ := Option.bind_eq_some_iff.1 hc₁
    cases hc₁
    cases he
    obtain ⟨hpos, hid, hcount⟩ := GCounter.increment_spec hinc
    rw [h.2.nodeId] at hcount
    have hpos : 0 ≤ (CounterOp.decrement amount).taken := hpos
    refine ⟨h.1.insert hH le_rfl rfl (fun m => ?_) (), h.2.insert hH hpos hid hcount ()⟩
    simp [CounterOp.added]

end

theorem reflects : Replicas.Reflects (replicaType : ReplicaType ν CounterOp Unit (PNCounter ν))
    (fun _ _ _ => True) (fun _ => True) Totals where
  init n := ⟨.init _ n, .init _ n⟩
  concat hH h e := ⟨h.1.concat hH e, h.2.concat hH e⟩
  perform _ hH _ _ h hp := Totals.perform h hH hp
  merge hl hH _ hK h h' := ⟨.merge hl hH hK h.1 h'.1, .merge hl hH hK h.2 h'.2⟩
  absorb hl hH _ hK h h' _ :=
    ⟨.merge hl hH hK h.1 h'.1.ofDigest, .merge hl hH hK h.2 h'.2.ofDigest⟩

/-- Runs of counters. -/
abbrev CounterRun := Run (Replicas.step (replicaType : ReplicaType ν CounterOp Unit (PNCounter ν)))

theorem totals_of_run {s : Replicas ν CounterOp Unit (PNCounter ν)}
    (h : CounterRun (.init replicaType) past s) : s.Ok ∧ Replicas.Reflected Totals s :=
  reflects.run h (fun p _ => Replicas.allows_true p.1 p.2)

section
omit [Inhabited ν]

theorem Totals.of_extends {log log' : List (Event ν CounterOp Unit)} (h : Totals n log H c)
    (hH : Causal log H) (hlog : log <+: log') : Totals n log' H c ∧ Causal log' H := by
  obtain ⟨l, rfl⟩ := hlog
  induction l using List.reverseRecOn with
  | nil =>
    rw [List.append_nil]
    exact ⟨h, hH⟩
  | append_singleton l e ih =>
    rw [← List.append_assoc]
    exact ⟨⟨ih.1.1.concat ih.2 e, ih.1.2.concat ih.2 e⟩, ih.2.concat e⟩

theorem Totals.value_eq {log : List (Event ν CounterOp Unit)} (h : Totals n log H c)
    (hH : Causal log H) :
    c.value =
      ∑ i ∈ H, amountAt CounterOp.added log i - ∑ i ∈ H, amountAt CounterOp.taken log i := by
  rw [PNCounter.value, h.1.value_eq hH, h.2.value_eq hH]

end

/-- Counts never decrease and never exceed the owner's own count, and a replica that has taken in
the final state of every other node with operations has the exact value. -/
theorem counters_exact {s : Replicas ν CounterOp Unit (PNCounter ν)}
    (hrun : CounterRun (.init replicaType) past s) :
    (∀ past' s', CounterRun s past' s' → ∀ n m,
      (s.state n).p.count m ≤ (s'.state n).p.count m ∧
      (s.state n).n.count m ≤ (s'.state n).n.count m) ∧
    (∀ n m, (s.state n).p.count m ≤ (s.state m).p.count m ∧
      (s.state n).n.count m ≤ (s.state m).n.count m) ∧
    ∀ n, (∀ e ∈ s.log, e.node ≠ n → Replicas.TakesFinal past n e.node) →
      (s.state n).value =
        (s.log.map (fun e => e.op.added)).sum - (s.log.map (fun e => e.op.taken)).sum := by
  obtain ⟨hok, htotals, _⟩ := totals_of_run hrun
  refine ⟨?_, ?_, ?_⟩
  · intro past' s' hrun' n m
    obtain ⟨hok', htotals', _⟩ := totals_of_run (hrun.append hrun')
    obtain ⟨hknown, hlog⟩ := Replicas.known_run hrun'
    obtain ⟨hold, _⟩ := (htotals n).of_extends (hok.known n) hlog
    have hsub := eventsOf_subset s'.log (hknown n) m
    exact ⟨hold.1.count_le (htotals' n).1 hsub, hold.2.count_le (htotals' n).2 hsub⟩
  · intro n m
    have hsub : eventsOf s.log (s.known n) m ⊆ eventsOf s.log (s.known m) m := by
      intro i hi
      obtain ⟨_, e, he, hnode⟩ := mem_eventsOf.1 hi
      exact mem_eventsOf.2 ⟨hok.owns m i e he hnode, e, he, hnode⟩
    exact ⟨(htotals n).1.count_le (htotals m).1 hsub, (htotals n).2.count_le (htotals m).2 hsub⟩
  · intro n hfinal
    have hall : s.known n = Finset.range s.log.length := by
      apply Finset.Subset.antisymm
      · intro i hi
        exact Finset.mem_range.2 ((hok.known n).lt i hi)
      · intro i hi
        have he := List.getElem?_eq_getElem (Finset.mem_range.1 hi)
        by_cases hnode : (s.log.get ⟨i, Finset.mem_range.1 hi⟩).node = n
        · exact hok.owns n i _ he hnode
        · exact (hfinal _ (List.getElem_mem _) hnode).known hrun he rfl
    rw [(htotals n).value_eq (hok.known n), hall, sum_amountAt_range, sum_amountAt_range]

/-- Two replicas that change their counters concurrently, with a stale and a repeated digest. -/
def concurrentCounts : List (ReplicaAction String CounterOp) :=
  [.perform "a" (.increment 5), .share "b", .perform "b" (.decrement 2), .share "b",
    .absorb "a" 1, .merge "a" 1, .absorb "a" 0]

theorem counters_exact_concurrent :
    ∃ past, ∃ s : Replicas String CounterOp Unit (PNCounter String),
      CounterRun (.init replicaType) past s ∧ (s.state "a").value = 3 ∧
      (s.state "b").value = -2 := by
  obtain ⟨s, hs⟩ : ∃ s, exec (Replicas.step replicaType) (.init replicaType) concurrentCounts =
    some s := ⟨_, rfl⟩
  have hrun := Run.start.exec hs
  cases hs
  refine ⟨_, _, hrun, ?_, by decide⟩
  rw [(counters_exact hrun).2.2 "a" ?_]
  · decide
  · intro e he hne
    rcases List.mem_cons.1 he with rfl | he
    · exact absurd rfl hne
    · cases List.mem_singleton.1 he
      refine ⟨[(_, .absorb "a" 0), (_, .merge "a" 1), (_, .absorb "a" 1)], _, _, rfl, ?_,
        (_, .merge "a" 1), List.mem_cons_of_mem _ List.mem_cons_self, .inl rfl⟩
      intro p hp op
      rcases List.mem_cons.1 hp with rfl | hp
      · nofun
      · rcases List.mem_cons.1 hp with rfl | hp
        · nofun
        · cases List.mem_singleton.1 hp
          nofun

end PNCounter

end Suprime
