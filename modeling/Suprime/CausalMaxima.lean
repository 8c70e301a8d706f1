import Mathlib.Data.Finset.Max
import Suprime.MvRegister

namespace Suprime
set_option autoImplicit true

abbrev MVVersion (ν α : Type) := α × VectorClock ν

abbrev WriteLog (ν α : Type) := List (Event ν α (MVVersion ν α))

/-- The version that the operation at a position of a log wrote. -/
def WriteAt (log : WriteLog ν α) (i : ℕ) (p : MVVersion ν α) : Prop :=
  ∃ e, log[i]? = some e ∧ e.op = p.1 ∧ e.out = p

def WrittenIn (log : WriteLog ν α) (H : Finset ℕ) (p : MVVersion ν α) : Prop :=
  ∃ i ∈ H, WriteAt log i p

def ClockBefore [DecidableEq ν] (p q : MVVersion ν α) : Prop := p.2.compare q.2 = .before

/-- A write whose clock counts the operations of every node that it knew of and itself. -/
structure Clocked [DecidableEq ν] (log : WriteLog ν α) (i : ℕ)
    (e : Event ν α (MVVersion ν α)) : Prop where
  out : e.out.1 = e.op
  clock : ∀ k, e.out.2.clock.get k = clockEntry (eventsOf log (insert i e.seen) k).card

/-- A replica with the maximal writes of its history. -/
structure Latest [DecidableEq ν] (n : ν) (log : WriteLog ν α) (H : Finset ℕ)
    (c : MVRegister ν α) : Prop where
  nodeId : c.nodeId = n
  clocked : ∀ i ∈ H, ∀ e, log[i]? = some e → Clocked log i e
  vc : ∀ k, c.vc.clock.get k = clockEntry (eventsOf log H k).card
  maxima : Maxima ClockBefore (WrittenIn log H) c.versions

section
variable {ν α : Type} [DecidableEq ν] [BEq α] {log : WriteLog ν α}
  {e e' : Event ν α (MVVersion ν α)}

section
omit [BEq α]

theorem Clocked.count (h : Clocked log i e) (k : ν) :
    e.out.2.count k = (eventsOf log (insert i e.seen) k).card :=
  VectorClock.count_of_get (h.clock k)

theorem Clocked.mem_past (hl : CausalLog log) (h : Clocked log i e) (h' : Clocked log j e')
    (he : log[i]? = some e) (he' : log[j]? = some e')
    (hle : e.out.2.count e.node ≤ e'.out.2.count e.node) : i ∈ insert j e'.seen := by
  rw [h.count, h'.count] at hle
  exact mem_of_card_eventsOf_le hl (hl.past he) (hl.past he') (Finset.mem_insert_self _ _) he
    (Int.ofNat_le.1 hle)

theorem Clocked.before_iff (hl : CausalLog log) (h : Clocked log i e) (h' : Clocked log j e')
    (he : log[i]? = some e) (he' : log[j]? = some e') : ClockBefore e.out e'.out ↔ i ∈ e'.seen := by
  rw [ClockBefore, VectorClock.compare_eq_before_iff]
  constructor
  · rintro ⟨⟨k, hlt⟩, hle⟩
    rcases Finset.mem_insert.1 (h.mem_past hl h' he he' (hle e.node)) with rfl | hmem
    · cases he.symm.trans he'
      exact absurd hlt (lt_irrefl _)
    · exact hmem
  · intro hmem
    have hij := hl.lt j e' he' i hmem
    have hsub : insert i e.seen ⊆ insert j e'.seen := by
      apply Finset.insert_subset (Finset.mem_insert_of_mem hmem)
      exact (hl.closed j e' he' i hmem e he).trans (Finset.subset_insert _ _)
    constructor
    · refine ⟨e'.node, ?_⟩
      rw [h.count, h'.count]
      apply Int.ofNat_lt.2
      apply Finset.card_lt_card
      rw [Finset.ssubset_iff_of_subset (eventsOf_subset log hsub _)]
      refine ⟨j, mem_eventsOf.2 ⟨Finset.mem_insert_self _ _, e', he', rfl⟩, fun hj => ?_⟩
      rcases Finset.mem_insert.1 (mem_eventsOf.1 hj).1 with hji | hj
      · exact absurd hij (hji ▸ Nat.lt_irrefl _)
      · exact absurd (hl.lt i e he j hj) (Nat.lt_asymm hij)
    · intro k
      rw [h.count, h'.count]
      exact Int.ofNat_le.2 (Finset.card_le_card (eventsOf_subset log hsub k))

theorem Clocked.eq_of_same (hl : CausalLog log) (h : Clocked log i e) (h' : Clocked log j e')
    (he : log[i]? = some e) (he' : log[j]? = some e') (hsame : e.out.2.clock.Same e'.out.2.clock) :
    i = j := by
  have hcount : ∀ k, e.out.2.count k = e'.out.2.count k := by
    intro k
    rw [VectorClock.count, hsame k, VectorClock.count]
  rcases Finset.mem_insert.1 (h.mem_past hl h' he he' (hcount e.node).le) with hij | hij
  · exact hij
  · rcases Finset.mem_insert.1 (h'.mem_past hl h he' he (hcount e'.node).ge) with hji | hji
    · exact hji.symm
    · exact absurd (hl.lt j e' he' i hij) (Nat.lt_asymm (hl.lt i e he j hji))

end

def ClockedWrite (log : WriteLog ν α) (p : MVVersion ν α) : Prop :=
  ∃ i e, log[i]? = some e ∧ e.out = p ∧ Clocked log i e

theorem selects (hl : CausalLog log) : Selects ClockBefore (ClockedWrite log) MVRegister.stopsAt
    MVRegister.replaces where
  irrefl p _ h := by
    obtain ⟨⟨k, hlt⟩, _⟩ := (VectorClock.compare_eq_before_iff _ _).1 h
    exact lt_irrefl _ hlt
  trans p q r _ _ _ hpq hqr := by
    obtain ⟨⟨k, hlt⟩, hle⟩ := (VectorClock.compare_eq_before_iff _ _).1 hpq
    obtain ⟨_, hle'⟩ := (VectorClock.compare_eq_before_iff _ _).1 hqr
    rw [ClockBefore, VectorClock.compare_eq_before_iff]
    exact ⟨⟨k, hlt.trans_le (hle' k)⟩, fun m => (hle m).trans (hle' m)⟩
  covers_of_lt p k _ _ h := by
    rw [MVRegister.stopsAt, Bool.or_eq_true]
    exact .inr (decide_eq_true h)
  of_covers p k hp hk h := by
    rw [MVRegister.stopsAt, Bool.or_eq_true, Bool.and_eq_true, decide_eq_true_eq,
      decide_eq_true_eq] at h
    rcases h with ⟨_, hsame⟩ | hbefore
    · obtain ⟨i, e, he, rfl, hi⟩ := hp
      obtain ⟨j, e', he', rfl, hj⟩ := hk
      cases hi.eq_of_same hl hj he he' hsame
      cases he.symm.trans he'
      exact .inl rfl
    · exact .inr hbefore
  replaces_iff p k _ _ := by
    rw [MVRegister.replaces, decide_eq_true_eq, VectorClock.compare_eq_after_iff, ClockBefore]

section
omit [BEq α]

theorem Clocked.concat (h : Clocked log i e) (he : log[i]? = some e)
    (hseen : ∀ j ∈ e.seen, j < log.length) (e' : Event ν α (MVVersion ν α)) :
    Clocked (log ++ [e']) i e where
  out := h.out
  clock k := by
    rw [eventsOf_concat]
    · exact h.clock k
    · intro j hj
      rcases Finset.mem_insert.1 hj with rfl | hj
      · exact (List.getElem?_eq_some_iff.1 he).1
      · exact hseen j hj

end

section
omit [BEq α] [DecidableEq ν]

theorem writtenIn_concat (h : ∀ i ∈ H, i < log.length) (e : Event ν α (MVVersion ν α))
    (p : MVVersion ν α) : WrittenIn (log ++ [e]) H p ↔ WrittenIn log H p := by
  apply exists_congr
  intro i
  apply and_congr_right
  intro hi
  rw [WriteAt, WriteAt, List.getElem?_append_left (h i hi)]

theorem writtenIn_union (log : WriteLog ν α) (H K : Finset ℕ) (p : MVVersion ν α) :
    WrittenIn log H p ∨ WrittenIn log K p ↔ WrittenIn log (H ∪ K) p := by
  simp only [WrittenIn, Finset.mem_union, or_and_right, exists_or]

end

namespace Latest

variable {n m : ν} {H K : Finset ℕ} {c d : MVRegister ν α}

section
omit [BEq α]

theorem fresh (log : WriteLog ν α) (n : ν) : Latest n log ∅ (MVRegister.init n) where
  nodeId := rfl
  clocked _ h := by cases h
  vc _ := by simp [eventsOf, clockEntry, MVRegister.init, VectorClock.init]
  maxima := Maxima.nil.congr (fun p => by simp [WrittenIn])

theorem concat (h : Latest n log H c) (hH : Causal log H) (e : Event ν α (MVVersion ν α)) :
    Latest n (log ++ [e]) H c where
  nodeId := h.nodeId
  clocked i hi e' he' := by
    rw [List.getElem?_append_left (hH.lt i hi)] at he'
    apply (h.clocked i hi e' he').concat he'
    exact fun j hj => hH.lt j (hH.closed i hi e' he' hj)
  vc k := by
    rw [eventsOf_concat hH.lt]
    exact h.vc k
  maxima := h.maxima.congr (fun p => (writtenIn_concat hH.lt e p).symm)

theorem clockedWrite (h : Latest n log H c) (hp : WrittenIn log H p) : ClockedWrite log p := by
  obtain ⟨i, hi, e, he, _, hout⟩ := hp
  exact ⟨i, e, he, hout, h.clocked i hi e he⟩

end

theorem set (h : Latest n log H c) (hl : CausalLog log) (hH : Causal log H) (hown : Owns log n H)
    (v : α) : Latest n (log ++ [⟨n, v, (v, c.vc.increment c.nodeId), H⟩])
      (insert log.length H) (c.set v) := by
  let new : Event ν α (MVVersion ν α) := ⟨n, v, (v, c.vc.increment c.nodeId), H⟩
  have hl' : CausalLog (log ++ [new]) := hl.concat hH hown v _
  have hlast : (log ++ [new])[log.length]? = some new := getElem?_concat.2 (.inr ⟨rfl, rfl⟩)
  have hold : Latest n (log ++ [new]) H c := h.concat hH new
  have hclock : ∀ k, (c.vc.increment c.nodeId).clock.get k =
      clockEntry (eventsOf (log ++ [new]) (insert log.length H) k).card := by
    intro k
    rw [VectorClock.get_increment_entry h.vc, eventsOf_insert hH, h.nodeId]
    by_cases hk : k = n
    · have hfresh : log.length ∉ eventsOf log H k :=
        fun hi => Nat.lt_irrefl _ (hH.lt _ (mem_eventsOf.1 hi).1)
      rw [if_pos hk, if_pos hk, Finset.card_insert_of_notMem hfresh]
    · rw [if_neg hk, if_neg hk]
  have hnew : Clocked (log ++ [new]) log.length new := ⟨rfl, hclock⟩
  have hwrite : WriteAt (log ++ [new]) log.length new.out := ⟨new, hlast, rfl, rfl⟩
  constructor
  · exact h.nodeId
  · intro i hi e he
    rcases Finset.mem_insert.1 hi with rfl | hi
    · cases hlast.symm.trans he
      exact hnew
    · exact hold.clocked i hi e he
  · exact hclock
  · refine ⟨?_, ?_, ?_⟩
    · intro q hq
      rw [List.mem_singleton.1 hq]
      exact ⟨_, Finset.mem_insert_self _ _, hwrite⟩
    · intro q hq r hr
      rw [List.mem_singleton.1 hq, List.mem_singleton.1 hr]
      exact (selects hl').irrefl _ ⟨_, new, hlast, rfl, hnew⟩
    · rintro p ⟨i, hi, e, he, _, rfl⟩
      refine ⟨new.out, List.mem_singleton_self _, ?_⟩
      rcases Finset.mem_insert.1 hi with rfl | hi
      · cases hlast.symm.trans he
        exact .inl rfl
      · exact .inr (((hold.clocked i hi e he).before_iff hl' hnew he hlast).2 hi)

theorem merge (hl : CausalLog log) (hH : Causal log H) (hK : Causal log K)
    (h : Latest n log H c) (h' : Latest m log K d) : Latest n log (H ∪ K) (c.merge d).1 where
  nodeId := h.nodeId
  clocked i hi := by
    rcases Finset.mem_union.1 hi with hi | hi
    · exact h.clocked i hi
    · exact h'.clocked i hi
  vc k := by
    have hmerge := VectorClock.get_merge_entry (h.vc k) (h'.vc k)
    rw [show (c.merge d).1.vc = c.vc.merge d.vc from rfl, hmerge, eventsOf_union]
    congr 1
    rcases eventsOf_chain hl hH hK k with hsub | hsub
    · rw [Finset.union_eq_right.2 hsub, max_eq_right (Finset.card_le_card hsub)]
    · rw [Finset.union_eq_left.2 hsub, max_eq_left (Finset.card_le_card hsub)]
  maxima := by
    have hmerge := Maxima.merge (selects hl) (fun _ => h.clockedWrite) (fun _ => h'.clockedWrite)
      h.maxima h'.maxima
    exact hmerge.congr (writtenIn_union log H K)

theorem mem_versions (h : Latest n log H c) (hl : CausalLog log) (p : MVVersion ν α) :
    p ∈ c.versions ↔ WrittenIn log H p ∧ ∀ q, WrittenIn log H q → ¬ ClockBefore p q :=
  h.maxima.mem_iff (selects hl) (fun _ => h.clockedWrite)

end Latest

section
omit [BEq α]

theorem get_foldl_merge {k : ν} (f : MVVersion ν α → ℕ) (l : List (MVVersion ν α))
    (hl : ∀ p ∈ l, p.2.clock.get k = clockEntry (f p)) (vc : VectorClock ν) (m : ℕ)
    (h : vc.clock.get k = clockEntry m) :
    (l.foldl (fun vc p => vc.merge p.2) vc).clock.get k =
      clockEntry (l.foldl (fun m p => max m (f p)) m) := by
  induction l generalizing vc m with
  | nil => exact h
  | cons p l ih =>
    apply ih (fun q hq => hl q (List.mem_cons_of_mem _ hq))
    exact VectorClock.get_merge_entry h (hl p List.mem_cons_self)

end

theorem foldl_max_eq (f : β → ℕ) (l : List β) (m b : ℕ) (hm : m ≤ b) (hl : ∀ p ∈ l, f p ≤ b)
    (h : b ≤ m ∨ ∃ p ∈ l, b ≤ f p) : l.foldl (fun m p => max m (f p)) m = b := by
  induction l generalizing m with
  | nil =>
    rcases h with h | ⟨p, hp, _⟩
    · exact le_antisymm hm h
    · cases hp
  | cons p l ih =>
    apply ih _ (max_le hm (hl p List.mem_cons_self)) (fun q hq => hl q (List.mem_cons_of_mem _ hq))
    rcases h with h | ⟨q, hq, hle⟩
    · exact .inl (h.trans (le_max_left _ _))
    · rcases List.mem_cons.1 hq with rfl | hq
      · exact .inl (hle.trans (le_max_right _ _))
      · exact .inr ⟨q, hq, hle⟩

section
omit [BEq α]

theorem Latest.vc_same {c : MVRegister ν α} (h : Latest n log H c) (hl : CausalLog log)
    (hH : Causal log H) :
    c.vc.clock.Same (MVRegister.joined c.versions).clock := by
  intro k
  have hentry : ∀ p ∈ c.versions, p.2.clock.get k = clockEntry (p.2.count k).toNat := by
    intro p hp
    obtain ⟨i, hi, e, he, _, rfl⟩ := h.maxima.mem p hp
    rw [(h.clocked i hi e he).count, Int.toNat_natCast]
    exact (h.clocked i hi e he).clock k
  rw [MVRegister.joined,
    get_foldl_merge (fun p => (p.2.count k).toNat) c.versions hentry .init 0 rfl, h.vc k]
  congr 1
  symm
  apply foldl_max_eq
  · exact Nat.zero_le _
  · intro p hp
    obtain ⟨i, hi, e, he, _, rfl⟩ := h.maxima.mem p hp
    rw [(h.clocked i hi e he).count, Int.toNat_natCast]
    apply Finset.card_le_card
    apply eventsOf_subset
    exact Finset.insert_subset hi (hH.closed i hi e he)
  · rcases (eventsOf log H k).eq_empty_or_nonempty with hempty | hne
    · rw [hempty]
      exact .inl le_rfl
    · right
      obtain ⟨i, hi, hmax⟩ := Finset.exists_max_image _ id hne
      obtain ⟨hiH, e, he, hnode⟩ := mem_eventsOf.1 hi
      have hclocked := h.clocked i hiH e he
      have hpast : eventsOf log H k ⊆ eventsOf log (insert i e.seen) k := by
        intro j hj
        obtain ⟨_, e', he', hnode'⟩ := mem_eventsOf.1 hj
        refine mem_eventsOf.2 ⟨?_, e', he', hnode'⟩
        rcases Nat.lt_or_eq_of_le (hmax j hj) with hlt | heq
        · have hseen := hl.own i e he j e' he' (hnode'.trans hnode.symm) hlt
          exact Finset.mem_insert_of_mem hseen
        · have hji : j = i := heq
          rw [hji]
          exact Finset.mem_insert_self _ _
      have hcount : ((eventsOf log H k).card : ℤ) ≤ e.out.2.count k := by
        rw [hclocked.count]
        exact Int.ofNat_le.2 (Finset.card_le_card hpast)
      obtain ⟨q, hq, hcov⟩ := h.maxima.cover e.out ⟨i, hiH, e, he, hclocked.out.symm, rfl⟩
      refine ⟨q, hq, ?_⟩
      have hle : e.out.2.count k ≤ q.2.count k := by
        rcases hcov with rfl | hbefore
        · exact le_rfl
        · exact ((VectorClock.compare_eq_before_iff _ _).1 hbefore).2 k
      have := hcount.trans hle
      omega

end

end

section
variable {ν α : Type} [DecidableEq ν] [Inhabited ν] [BEq α]

def WritesSelfEqual (_ : WriteLog ν α) (_ : ν) (value : α) : Prop := (value == value) = true

instance (log : WriteLog ν α) (n : ν) (value : α) : Decidable (WritesSelfEqual log n value) :=
  inferInstanceAs (Decidable ((value == value) = true))

theorem absorb_eq (a b : MVRegister ν α) :
    (MVRegister.replicaType : ReplicaType ν α (MVVersion ν α) (MVRegister ν α)).absorb a b =
      (a.merge b).1 :=
  congrArg Prod.fst (MVRegister.applyDigest_digest a b)

theorem latest_reflects : Replicas.Reflects
    (MVRegister.replicaType : ReplicaType ν α (MVVersion ν α) (MVRegister ν α))
    (fun _ _ _ => True) (fun _ => True) Latest where
  init := .fresh []
  concat hH h e := h.concat hH e
  perform {n log H c v c' out} hl hH hown _ h hp := by
    cases hp
    exact h.set hl hH hown v
  merge hl hH _ hK h h' := h.merge hl hH hK h'
  absorb hl hH _ hK h h' _ := by
    rw [absorb_eq]
    exact h.merge hl hH hK h'

/-- A replica that has every version once, of values that equal themselves. -/
structure Once (_ : ν) (_ : WriteLog ν α) (_ : Finset ℕ) (c : MVRegister ν α) : Prop where
  self : ∀ p ∈ c.versions, (p.1 == p.1) = true
  nodup : c.versions.Nodup

section
omit [Inhabited ν]

theorem Once.merge {a b : MVRegister ν α} (h : Once n log H a) (h' : Once m log K b) :
    Once n log (H ∪ K) (a.merge b).1 := by
  have hself : ∀ p ∈ a.versions ++ b.versions, (p.1 == p.1) = true := by
    intro p hp
    rcases List.mem_append.1 hp with hp | hp
    · exact h.self p hp
    · exact h'.self p hp
  constructor
  · exact fun p hp => hself p (mem_of_mem_foldl_keepMaximal hp)
  · apply nodup_foldl_keepMaximal
    intro p hp
    have hsame : p.2.clock.Same p.2.clock := fun _ => rfl
    rw [MVRegister.stopsAt, hself p hp, decide_eq_true hsame]
    rfl

end

theorem once_reflects : Replicas.Reflects
    (MVRegister.replicaType : ReplicaType ν α (MVVersion ν α) (MVRegister ν α))
    WritesSelfEqual (fun _ => True) Once where
  init _ := ⟨fun _ hp => absurd hp List.not_mem_nil, List.nodup_nil⟩
  concat _ h _ := ⟨h.self, h.nodup⟩
  perform {n log H c v c' out} _ _ _ hv _ hp := by
    cases hp
    refine ⟨fun p hp => ?_, List.nodup_singleton _⟩
    rw [List.mem_singleton.1 hp]
    exact hv
  merge _ _ _ _ h h' := h.merge h'
  absorb _ _ _ _ h h' _ := by
    rw [absorb_eq]
    exact h.merge h'

/-- Runs of registers. -/
abbrev RegisterRun (ν α : Type) [DecidableEq ν] [Inhabited ν] [BEq α] :=
  Run (Replicas.step (MVRegister.replicaType : ReplicaType ν α (MVVersion ν α) (MVRegister ν α)))

/-- While the values that are written equal themselves, the versions of a replica are the writes of
its history that are not before another one, each once, and its clock is their join. -/
theorem mvregister_keeps_maxima {s : Replicas ν α (MVVersion ν α) (MVRegister ν α)}
    (hrun : RegisterRun ν α (.init MVRegister.replicaType) past s)
    (hself : ∀ p ∈ past, Replicas.Allows WritesSelfEqual (fun _ => True) p.1 p.2) :
    (∀ n, (∀ p, p ∈ (s.state n).versions ↔ WrittenIn s.log (s.known n) p ∧
        ∀ q, WrittenIn s.log (s.known n) q → p.2.compare q.2 ≠ .before) ∧
      (s.state n).versions.Nodup ∧
      (s.state n).vc.clock.Same (MVRegister.joined (s.state n).versions).clock) ∧
    (∀ i j p, WriteAt s.log i p → WriteAt s.log j p → i = j) ∧
    ∀ n m, s.known n = s.known m →
      ∀ v, v ∈ (s.state n).values ↔ v ∈ (s.state m).values := by
  obtain ⟨hok, hlatest, _⟩ :=
    latest_reflects.run hrun (fun p _ => Replicas.allows_true p.1 p.2)
  obtain ⟨_, honce, _⟩ := once_reflects.run hrun hself
  have hmem := fun n => (hlatest n).mem_versions hok.log
  refine ⟨?_, ?_, ?_⟩
  · intro n
    exact ⟨hmem n, (honce n).nodup, (hlatest n).vc_same hok.log (hok.known n)⟩
  · rintro i j p ⟨e, he, _, hout⟩ ⟨e', he', _, hout'⟩
    have hi := (hlatest e.node).clocked i (hok.own i e he) e he
    have hj := (hlatest e'.node).clocked j (hok.own j e' he') e' he'
    apply hi.eq_of_same hok.log hj he he'
    rw [hout, hout']
    exact fun _ => rfl
  · intro n m heq v
    have hversions : ∀ p, p ∈ (s.state n).versions ↔ p ∈ (s.state m).versions := by
      intro p
      rw [hmem n p, hmem m p, heq]
    rw [MVRegister.values, MVRegister.values, List.mem_map, List.mem_map]
    simp only [hversions]

end

/-- Two nodes write at the same time, and a third one merges what they pass on. -/
def concurrentWrites : List (ReplicaAction String ℕ) :=
  [.perform "a" 1, .perform "b" 2, .share "a", .share "b", .merge "c" 0, .absorb "c" 1,
    .merge "c" 0]

theorem mvregister_keeps_maxima_concurrent :
    ∃ past, ∃ s : Replicas String ℕ (MVVersion String ℕ) (MVRegister String ℕ),
      RegisterRun String ℕ (.init MVRegister.replicaType) past s ∧
      (s.state "c").values = [1, 2] ∧ (s.state "c").versions.Nodup := by
  obtain ⟨past, s, hrun, hallows, hs⟩ := exists_run_of_execWhere
    (Replicas.step MVRegister.replicaType)
    (Replicas.Allows (WritesSelfEqual : WriteLog String ℕ → _) (fun _ => True))
    (Replicas.init MVRegister.replicaType) concurrentWrites
    (fun s => (s.state "c").values) [1, 2] (by decide)
  exact ⟨past, s, hrun, hs, ((mvregister_keeps_maxima hrun hallows).1 "c").2.1⟩

/-- A float: not a number is not equal to itself. -/
inductive PyNumber
  | number (i : ℤ)
  | nan
  deriving DecidableEq

instance : BEq PyNumber where
  beq
    | .number i, .number j => i == j
    | _, _ => false

/-- A replica that merges its own state keeps a write of a value that is not a number twice. -/
theorem mvregister_keeps_nan_twice :
    ∃ past, ∃ s : Replicas String PyNumber (MVVersion String PyNumber) (MVRegister String PyNumber),
      RegisterRun String PyNumber (.init MVRegister.replicaType) past s ∧
      s.log.length = 1 ∧ (s.state "a").values = [.nan, .nan] ∧ ¬ (s.state "a").versions.Nodup := by
  obtain ⟨past, s, hrun, hs⟩ := exists_run_of_exec (Replicas.step MVRegister.replicaType)
    (Replicas.init MVRegister.replicaType)
    [.perform "a" PyNumber.nan, .share "a", .merge "a" 0]
    (fun s => decide (s.log.length = 1 ∧ (s.state "a").values = [.nan, .nan] ∧
      ¬ (s.state "a").versions.Nodup)) true (by decide)
  exact ⟨past, s, hrun, of_decide_eq_true hs⟩

end Suprime
