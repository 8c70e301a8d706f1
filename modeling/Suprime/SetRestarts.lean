import Suprime.ObservedRemove
import Suprime.Run

namespace Suprime
set_option autoImplicit true

/-- Sets of any number of nodes and every digest that one of them has ever produced. -/
structure OrSetSwarm (ε : Type) where
  replica : PyStr → ORSet ε
  shared : List (ORSet.Digest ε)

/-- What happens to the set of a node; `restart` starts it over under the same id. -/
inductive OrSetAction (ε : Type)
  | add (n : PyStr) (element : ε)
  | remove (n : PyStr) (element : ε)
  | share (n : PyStr)
  | applyDigest (n : PyStr) (i : ℕ)
  | restart (n : PyStr)

/-- The set of the node goes on. -/
def OrSetAction.KeepsSet : OrSetAction ε → Prop
  | .restart _ => False
  | _ => True

instance (a : OrSetAction ε) : Decidable a.KeepsSet :=
  match a with
  | .add _ _ => inferInstanceAs (Decidable True)
  | .remove _ _ => inferInstanceAs (Decidable True)
  | .share _ => inferInstanceAs (Decidable True)
  | .applyDigest _ _ => inferInstanceAs (Decidable True)
  | .restart _ => inferInstanceAs (Decidable False)

section
variable {ε : Type} [DecidableEq ε] [SetOrder] [HasRepr ε]

namespace OrSetSwarm

def init : OrSetSwarm ε := ⟨ORSet.init, []⟩

/-- Node `n` has another set. -/
def withSet (s : OrSetSwarm ε) (n : PyStr) (c : ORSet ε) : OrSetSwarm ε :=
  { s with replica := Function.update s.replica n c }

def step (s : OrSetSwarm ε) : OrSetAction ε → Option (OrSetSwarm ε)
  | .add n element => some (s.withSet n ((s.replica n).add element))
  | .remove n element => some (s.withSet n ((s.replica n).remove element))
  | .share n => some { s with shared := s.shared ++ [(s.replica n).digest] }
  | .applyDigest n i =>
    (s.shared[i]?).map (fun d => s.withSet n ((s.replica n).applyDigest d).1)
  | .restart n => some (s.withSet n (.init n))

end OrSetSwarm

namespace ORSet

/-- The set has the tag on an element or as a tombstone. -/
def Knows (c : ORSet ε) (t : PyStr) : Prop := (∃ x, t ∈ c.tags x) ∨ t ∈ c.removed

section
omit [SetOrder] [HasRepr ε]

theorem knows_add {c : ORSet ε} {x : ε} (h : (c.add x).Knows t) :
    t = tagText c.nodeId (c.counter + 1) ∨ c.Knows t := by
  cases h with
  | inl h =>
    obtain ⟨y, hy⟩ := h
    rw [tags_add] at hy
    by_cases hyx : y = x
    · rw [if_pos hyx, Finset.mem_insert] at hy
      exact hy.imp_right (fun ht => .inl ⟨x, ht⟩)
    · rw [if_neg hyx] at hy
      exact .inr (.inl ⟨y, hy⟩)
  | inr h => exact .inr (.inr h)

theorem knows_remove {c : ORSet ε} {x : ε} (h : (c.remove x).Knows t) : c.Knows t := by
  cases h with
  | inl h => exact .inl h
  | inr h =>
    cases Finset.mem_union.1 h with
    | inl h => exact .inr h
    | inr h => exact .inl ⟨x, h⟩

theorem knows_merge {c d : ORSet ε} (h : (c.merge d).1.Knows t) : c.Knows t ∨ d.Knows t := by
  cases h with
  | inl h =>
    obtain ⟨x, hx⟩ := h
    rw [tags_merge, Finset.mem_union] at hx
    exact hx.imp (fun ht => .inl ⟨x, ht⟩) (fun ht => .inl ⟨x, ht⟩)
  | inr h =>
    rw [removed_merge, Finset.mem_union] at h
    exact h.imp .inr .inr

end

/-- A digest has no tags of its own, even where elements share an entry. -/
theorem knows_ofDigest {c : ORSet ε} (h : (ofDigest c.digest).Knows t) : c.Knows t := by
  cases h with
  | inl h =>
    obtain ⟨x, hx⟩ := h
    rw [tags, tagsIn] at hx
    cases hget : (ofDigest c.digest).adds.get x with
    | none =>
      rw [hget] at hx
      exact absurd hx (Finset.notMem_empty t)
    | some s =>
      rw [hget, Option.getD_some] at hx
      obtain ⟨v, hv, hxs⟩ := List.mem_map.1 (Dict.mem_of_get_ofList hget)
      obtain ⟨⟨k, w⟩, hkw, rfl⟩ := List.mem_map.1 hv
      have hmem := Dict.mem_of_get_ofList (Dict.mem_items.1 hkw)
      obtain ⟨⟨y, u⟩, hyu, he⟩ := List.mem_map.1 hmem
      simp only [Prod.mk.injEq] at he hxs
      obtain ⟨-, rfl⟩ := he
      obtain ⟨-, rfl⟩ := hxs
      rw [SetOrder.toFinset_list] at hx
      refine .inl ⟨y, ?_⟩
      rw [tags, tagsIn, Dict.mem_items.1 hyu]
      exact hx
  | inr h =>
    rw [ofDigest, digest, SetOrder.toFinset_list] at h
    exact .inr h

section
omit [SetOrder] [HasRepr ε]

/-- What was added is contained exactly when the new tag is no tombstone or it was contained
before. -/
theorem contains_add (c : ORSet ε) (x : ε) :
    (c.add x).contains x = true ↔ c.freshTag.1 ∉ c.removed ∨ c.contains x = true := by
  rw [contains_iff, contains_iff, mem_elements, mem_elements, tags_add, if_pos rfl]
  change ¬ insert c.freshTag.1 (c.tags x) ⊆ c.removed ↔ _
  rw [Finset.insert_subset_iff, not_and_or]

end

end ORSet

namespace OrSetSwarm

section
omit [SetOrder] [HasRepr ε] [DecidableEq ε]

theorem nodeId_withSet {s : OrSetSwarm ε} {c : ORSet ε} (h : ∀ m, (s.replica m).nodeId = m)
    (hid : c.nodeId = n) (m : PyStr) : ((s.withSet n c).replica m).nodeId = m := by
  by_cases hm : m = n
  · simp only [OrSetSwarm.withSet, hm, Function.update_self]
    exact hid
  · simp only [OrSetSwarm.withSet, Function.update_of_ne hm]
    exact h m

end

theorem nodeId_step {s s' : OrSetSwarm ε} (h : ∀ m, (s.replica m).nodeId = m)
    (hs : s.step a = some s') : ∀ m, (s'.replica m).nodeId = m := by
  cases a with
  | add n x =>
    cases hs
    exact nodeId_withSet h (h n)
  | remove n x =>
    cases hs
    exact nodeId_withSet h (h n)
  | share n =>
    cases hs
    exact h
  | applyDigest n i =>
    obtain ⟨d, -, rfl⟩ := Option.map_eq_some_iff.1 hs
    exact nodeId_withSet h (((s.replica n).fields_merge (ORSet.ofDigest d)).1.trans (h n))
  | restart n =>
    cases hs
    exact nodeId_withSet h rfl

/-- No node has made a tag of a higher number than its counter. -/
structure Numbered (s : OrSetSwarm ε) : Prop where
  nodeId : ∀ n, (s.replica n).nodeId = n
  replica : ∀ n m k, (s.replica n).Knows (tagText m k) → k ≤ (s.replica m).counter
  shared : ∀ d ∈ s.shared, ∀ m k, (ORSet.ofDigest d).Knows (tagText m k) →
    k ≤ (s.replica m).counter

section
omit [SetOrder] [HasRepr ε]

theorem Numbered.init : (OrSetSwarm.init : OrSetSwarm ε).Numbered where
  nodeId n := rfl
  replica n m k h := by
    cases h with
    | inl h =>
      obtain ⟨x, hx⟩ := h
      cases hx
    | inr h => cases h
  shared d hd := by cases hd

/-- A node's set may change as long as its counter does not fall and its tags were known or are
its own up to the counter. -/
theorem Numbered.withSet {s : OrSetSwarm ε} (h : s.Numbered) {c : ORSet ε} (hid : c.nodeId = n)
    (hcounter : (s.replica n).counter ≤ c.counter)
    (hknown : ∀ m k, c.Knows (tagText m k) →
      k ≤ (s.replica m).counter ∨ m = n ∧ k ≤ c.counter) : (s.withSet n c).Numbered := by
  have hle : ∀ m, (s.replica m).counter ≤ ((s.withSet n c).replica m).counter := by
    intro m
    by_cases hm : m = n
    · simp only [OrSetSwarm.withSet, hm, Function.update_self]
      exact hcounter
    · simp only [OrSetSwarm.withSet, Function.update_of_ne hm]
      exact le_rfl
  refine ⟨nodeId_withSet h.nodeId hid, ?_, fun d hd m k hk => (h.shared d hd m k hk).trans (hle m)⟩
  intro m m' k hk
  by_cases hm : m = n
  · simp only [OrSetSwarm.withSet, hm, Function.update_self] at hk
    cases hknown m' k hk with
    | inl hold => exact hold.trans (hle m')
    | inr hown =>
      simp only [OrSetSwarm.withSet, hown.1, Function.update_self]
      exact hown.2
  · simp only [OrSetSwarm.withSet, Function.update_of_ne hm] at hk
    exact (h.replica m m' k hk).trans (hle m')

end

theorem Numbered.step {s s' : OrSetSwarm ε} (h : s.Numbered) (ha : a.KeepsSet)
    (hs : s.step a = some s') : s'.Numbered := by
  cases a with
  | add n x =>
    cases hs
    have hcounter : (s.replica n).counter ≤ ((s.replica n).add x).counter := Nat.le_succ _
    apply h.withSet (c := (s.replica n).add x) (h.nodeId n) hcounter
    intro m k hk
    cases ORSet.knows_add hk with
    | inl hfresh =>
      obtain ⟨hm, hk⟩ := tagText_injective hfresh
      rw [h.nodeId n] at hm
      exact .inr ⟨hm, hk.le⟩
    | inr hold => exact .inl (h.replica n m k hold)
  | remove n x =>
    cases hs
    apply h.withSet (c := (s.replica n).remove x) (h.nodeId n) le_rfl
    intro m k hk
    exact .inl (h.replica n m k (ORSet.knows_remove hk))
  | share n =>
    cases hs
    refine ⟨h.nodeId, h.replica, ?_⟩
    intro d hd m k hk
    cases List.mem_append.1 hd with
    | inl hd => exact h.shared d hd m k hk
    | inr hd =>
      rw [List.mem_singleton.1 hd] at hk
      exact h.replica n m k (ORSet.knows_ofDigest hk)
  | applyDigest n i =>
    obtain ⟨d, hd, rfl⟩ := Option.map_eq_some_iff.1 hs
    obtain ⟨hid, hcounter⟩ := (s.replica n).fields_merge (ORSet.ofDigest d)
    apply h.withSet (hid.trans (h.nodeId n)) hcounter.ge
    intro m k hk
    cases ORSet.knows_merge hk with
    | inl hold => exact .inl (h.replica n m k hold)
    | inr hnew => exact .inl (h.shared d (List.mem_of_getElem? hd) m k hnew)
  | restart n => exact absurd ha id

section
omit [SetOrder] [HasRepr ε]

theorem Numbered.freshTag {s : OrSetSwarm ε} (h : s.Numbered) (n : PyStr) :
    (s.replica n).freshTag.1 ∉ (s.replica n).removed := by
  intro hmem
  have hle := h.replica n _ _ (.inr hmem)
  rw [h.nodeId n] at hle
  omega

end

end OrSetSwarm

/-- In every state, after restarts or not, what a node adds is contained exactly when the new tag
is no tombstone of an earlier life or the element was contained before. It is contained in every
state of a run without restarts. -/
theorem orset_add_takes_effect_iff {s : OrSetSwarm ε}
    (h : Run OrSetSwarm.step OrSetSwarm.init past s) (n : PyStr) (x : ε) :
    (((s.replica n).add x).contains x = true ↔
      tagText n ((s.replica n).counter + 1) ∉ (s.replica n).removed ∨
        (s.replica n).contains x = true) ∧
    ((∀ p ∈ past, p.2.KeepsSet) → ((s.replica n).add x).contains x = true) := by
  have hid : ∀ n, (s.replica n).nodeId = n :=
    h.invariant (I := fun s => ∀ n, (s.replica n).nodeId = n) (C := fun _ _ => True)
      (fun _ _ => trivial) (fun n => rfl) (fun _ _ _ hs _ hstep => OrSetSwarm.nodeId_step hs hstep)
  have hiff := (s.replica n).contains_add x
  rw [ORSet.freshTag, hid n] at hiff
  refine ⟨hiff, ?_⟩
  intro hkeeps
  have hnumbered : s.Numbered := h.invariant (I := OrSetSwarm.Numbered)
    (C := fun _ a => a.KeepsSet) hkeeps .init (fun _ _ _ hs ha hstep => hs.step ha hstep)
  exact ((s.replica n).contains_add x).2 (.inl (hnumbered.freshTag n))

/-- What a set that starts over learns from the digest of its first life. -/
def ORSet.relearned (n : PyStr) (x : ε) : ORSet ε :=
  ((ORSet.init n).applyDigest (((ORSet.init n).add x).remove x).digest).1

theorem ORSet.mem_removed_relearned (n : PyStr) (x : ε) :
    tagText n 1 ∈ (ORSet.relearned n x).removed := by
  have htags : tagText n 1 ∈ ((ORSet.init n).add x).tags x := by
    rw [tags_add, if_pos rfl]
    exact Finset.mem_insert_self _ _
  rw [relearned, applyDigest, removed_merge, ofDigest, digest, SetOrder.toFinset_list]
  exact Finset.mem_union_right _ (Finset.mem_union_right _ htags)

section
omit [SetOrder] [HasRepr ε]

theorem ORSet.knows_init {n t : PyStr} : ¬ (ORSet.init n : ORSet ε).Knows t := by
  intro h
  cases h with
  | inl h =>
    obtain ⟨x, hx⟩ := h
    cases hx
  | inr h => cases h

end

theorem ORSet.eq_of_knows_relearned {n : PyStr} {x : ε} (h : (ORSet.relearned n x).Knows t) :
    t = tagText n 1 := by
  have hold : ((ORSet.init n).add x).Knows t :=
    knows_remove (knows_ofDigest ((knows_merge h).resolve_left knows_init))
  exact (knows_add hold).resolve_right knows_init

theorem ORSet.contains_add_relearned (n : PyStr) (x y : ε) :
    ((ORSet.relearned n x).add y).contains y = false := by
  have hfields := (ORSet.init n : ORSet ε).fields_merge
    (ofDigest (((ORSet.init n).add x).remove x).digest)
  have hfresh : (ORSet.relearned n x).freshTag.1 = tagText n 1 := by
    rw [freshTag, relearned, applyDigest, hfields.1, hfields.2]
    rfl
  rw [← Bool.not_eq_true, contains_add, hfresh, contains_iff, mem_elements]
  intro h
  cases h with
  | inl h => exact h (mem_removed_relearned n x)
  | inr h =>
    apply h
    intro t ht
    rw [eq_of_knows_relearned (.inl ⟨y, ht⟩)]
    exact mem_removed_relearned n x

end

/-- Node `a` adds and removes an element, starts over and learns its own past. -/
def restartedAdd : List (OrSetAction ℕ) :=
  [.add [97] 5, .remove [97] 5, .share [97], .restart [97], .applyDigest [97] 0]

/-- What it adds next gets the tag of its first life, which is a tombstone. -/
theorem restarted_add_is_lost :
    ¬ ∀ (past : List (OrSetSwarm ℕ × OrSetAction ℕ)) (s : OrSetSwarm ℕ),
      Run OrSetSwarm.step OrSetSwarm.init past s →
      ∀ n x, ((s.replica n).add x).contains x = true := by
  intro hall
  obtain ⟨past, s, hr, hs⟩ := exists_run_of_exec OrSetSwarm.step OrSetSwarm.init restartedAdd
    (fun s => s.replica [97]) (ORSet.relearned [97] 5) rfl
  have hlost := ORSet.contains_add_relearned [97] 5 7
  rw [← hs, hall past s hr] at hlost
  cases hlost

theorem orset_add_takes_effect_iff_remove :
    ∃ past, ∃ s : OrSetSwarm ℕ, Run OrSetSwarm.step OrSetSwarm.init past s ∧
      (s.replica [97]).counter = 1 ∧ ((s.replica [97]).add 5).contains 5 = true := by
  obtain ⟨past, s, hr, hkeeps, hs⟩ := exists_run_of_execWhere OrSetSwarm.step
    (fun _ a => a.KeepsSet) OrSetSwarm.init [.add [97] 5, .remove [97] 5, .share [97]]
    (fun s : OrSetSwarm ℕ => (s.replica [97]).counter) 1 (by decide)
  exact ⟨past, s, hr, hs, (orset_add_takes_effect_iff hr [97] 5).2 hkeeps⟩

end Suprime
