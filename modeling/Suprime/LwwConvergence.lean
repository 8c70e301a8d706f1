import Mathlib.Data.String.Basic
import Suprime.LwwMap

namespace Suprime
set_option autoImplicit true

abbrev SetCallLog (ν κ α τ : Type) := List (Event ν (SetCall κ α τ) Unit)

/-- The entry that the operation at a position of a log wrote for a key. -/
def EntryAt (log : SetCallLog ν κ α τ) (i : ℕ) (k : κ) (x : LWWEntry ν α τ) : Prop :=
  ∃ e, log[i]? = some e ∧ e.op.key = k ∧ x = ⟨e.op.value, e.op.now, e.node⟩

/-- A replica whose entries were all written by operations that it knows of. -/
structure Sourced [DecidableEq κ] (n : ν) (log : SetCallLog ν κ α τ) (H : Finset ℕ)
    (c : LWWMap ν κ α τ) : Prop where
  nodeId : c.nodeId = n
  source : ∀ k x, c.entries.get k = some x → ∃ i ∈ H, EntryAt log i k x

/-- A node that sets a key again with the same reading of its clock sets the same value. -/
def FreshReading (log : SetCallLog ν κ α τ) (n : ν) (call : SetCall κ α τ) : Prop :=
  ∀ e ∈ log, e.node = n → e.op.key = call.key → e.op.now = call.now → e.op.value = call.value

instance [DecidableEq ν] [DecidableEq κ] [DecidableEq α] [DecidableEq τ]
    (log : SetCallLog ν κ α τ) (n : ν) (call : SetCall κ α τ) :
    Decidable (FreshReading log n call) :=
  inferInstanceAs (Decidable (∀ e ∈ log, _ → _ → _ → _))

/-- The version of an entry tells its value. -/
def Consistent (log : SetCallLog ν κ α τ) : Prop :=
  ∀ e ∈ log, ∀ e' ∈ log, e.node = e'.node → e.op.key = e'.op.key → e.op.now = e'.op.now →
    e.op.value = e'.op.value

section
variable {ν κ α τ : Type} [LinearOrder ν] [Inhabited ν] [DecidableEq κ] [LinearOrder τ]
  {log : SetCallLog ν κ α τ} {n m : ν} {H K : Finset ℕ} {c d : LWWMap ν κ α τ}

section
omit [LinearOrder ν] [Inhabited ν] [LinearOrder τ]

theorem Sourced.init (n : ν) : Sourced n ([] : SetCallLog ν κ α τ) ∅ (LWWMap.init n) where
  nodeId := rfl
  source _ _ h := by cases h

theorem Sourced.concat (h : Sourced n log H c) (e : Event ν (SetCall κ α τ) Unit) :
    Sourced n (log ++ [e]) H c where
  nodeId := h.nodeId
  source k x hx := by
    obtain ⟨i, hi, e', he', hkey, hentry⟩ := h.source k x hx
    exact ⟨i, hi, e', getElem?_concat.2 (.inl he'), hkey, hentry⟩

theorem Sourced.set (h : Sourced n log H c) (call : SetCall κ α τ) :
    Sourced n (log ++ [⟨n, call, (), H⟩]) (insert log.length H) (c.set call) where
  nodeId := h.nodeId
  source k x hx := by
    change (c.entries.set call.key _).get k = some x at hx
    rw [Dict.get_set] at hx
    by_cases hk : k = call.key
    · rw [if_pos hk] at hx
      cases hx
      refine ⟨_, Finset.mem_insert_self _ _, _, getElem?_concat.2 (.inr ⟨rfl, rfl⟩), hk.symm, ?_⟩
      rw [h.nodeId]
    · rw [if_neg hk] at hx
      obtain ⟨i, hi, hentry⟩ := (h.concat ⟨n, call, (), H⟩).source k x hx
      exact ⟨i, Finset.mem_insert_of_mem hi, hentry⟩

end

section
omit [Inhabited ν]

theorem Sourced.merge (h : Sourced n log H c) (h' : Sourced m log K d) :
    Sourced n log (H ∪ K) (c.merge d).1 where
  nodeId := h.nodeId
  source k x hx := by
    rw [LWWMap.entry_merge] at hx
    rcases LWWMap.newer_eq_left_or_right (c.entries.get k) (d.entries.get k) with heq | heq
    · rw [heq] at hx
      obtain ⟨i, hi, hentry⟩ := h.source k x hx
      exact ⟨i, Finset.mem_union_left _ hi, hentry⟩
    · rw [heq] at hx
      obtain ⟨i, hi, hentry⟩ := h'.source k x hx
      exact ⟨i, Finset.mem_union_right _ hi, hentry⟩

end

theorem sourced_reflects : Replicas.Reflects
    (LWWMap.replicaType : ReplicaType ν (SetCall κ α τ) Unit (LWWMap ν κ α τ))
    FreshReading (fun _ => True) Sourced where
  init := .init
  concat _ h e := h.concat e
  perform {n log H c call c' out} _ _ _ _ h hp := by
    cases hp
    exact h.set call
  merge _ _ _ _ h h' := h.merge h'
  absorb {n m log H K a b} _ _ _ _ h h' _ := by
    have heq : LWWMap.replicaType.absorb a b = (a.merge b).1 :=
      congrArg Prod.fst (LWWMap.applyDigest_digest a b)
    rw [heq]
    exact h.merge h'

/-- Runs of maps. -/
abbrev MapRun (ν κ α τ : Type) [LinearOrder ν] [Inhabited ν] [DecidableEq κ] [LinearOrder τ] :=
  Run (Replicas.step (LWWMap.replicaType : ReplicaType ν (SetCall κ α τ) Unit (LWWMap ν κ α τ)))

theorem Consistent.step {s s' : Replicas ν (SetCall κ α τ) Unit (LWWMap ν κ α τ)}
    (h : Consistent s.log) (hA : Replicas.Allows FreshReading (fun _ => True) s a)
    (hs : Replicas.step LWWMap.replicaType s a = some s') : Consistent s'.log := by
  rcases Replicas.step_cases hs with ⟨n, call, state, out, rfl, _, rfl⟩ | ⟨n, rfl⟩ |
    ⟨n, i, x, state, hx, _, rfl⟩
  · intro e he e' he' hnode hkey hnow
    rcases List.mem_append.1 he with he | he
    · rcases List.mem_append.1 he' with he' | he'
      · exact h e he e' he' hnode hkey hnow
      · cases List.mem_singleton.1 he'
        exact hA e he hnode hkey hnow
    · cases List.mem_singleton.1 he
      rcases List.mem_append.1 he' with he' | he'
      · exact (hA e' he' hnode.symm hkey.symm hnow.symm).symm
      · cases List.mem_singleton.1 he'
        rfl
  · exact h
  · exact h

section
omit [LinearOrder ν] [Inhabited ν] [LinearOrder τ]

theorem Sourced.agree (hc : Consistent log) (h : Sourced n log H c) (h' : Sourced m log K d)
    (k : κ) : ∀ x ∈ c.entries.get k, ∀ y ∈ d.entries.get k, x.version = y.version → x = y := by
  intro x hx y hy hversion
  obtain ⟨i, _, e, he, hkey, rfl⟩ := h.source k x hx
  obtain ⟨j, _, e', he', hkey', rfl⟩ := h'.source k y hy
  have hpair := toLex.injective hversion
  simp only [Prod.mk.injEq] at hpair
  have hvalue := hc e (List.mem_of_getElem? he) e' (List.mem_of_getElem? he') hpair.2
    (hkey.trans hkey'.symm) hpair.1
  rw [hvalue, hpair.1, hpair.2]

end

/-- While no node sets a key to two values with one reading of its clock, two replicas that merge
each other's states, at once or one after the other, hold the same value for every key. -/
theorem lwwmap_converges {s : Replicas ν (SetCall κ α τ) Unit (LWWMap ν κ α τ)}
    (hrun : MapRun ν κ α τ (.init LWWMap.replicaType) past s)
    (hfresh : ∀ p ∈ past, Replicas.Allows FreshReading (fun _ => True) p.1 p.2) (n m : ν) (k : κ) :
    ((s.state n).merge (s.state m)).1.get k = ((s.state m).merge (s.state n)).1.get k ∧
    ((s.state m).merge ((s.state n).merge (s.state m)).1).1.get k =
      ((s.state n).merge (s.state m)).1.get k := by
  obtain ⟨_, hsourced, _⟩ := sourced_reflects.run hrun hfresh
  have hconsistent : Consistent s.log := by
    apply hrun.invariant (I := fun s => Consistent s.log) hfresh
    · intro e he
      cases he
    · exact fun _ _ _ h hA hstep => h.step hA hstep
  have hagree := (hsourced n).agree hconsistent (hsourced m) k
  constructor
  · rw [LWWMap.get, LWWMap.get, LWWMap.entry_merge, LWWMap.entry_merge,
      LWWMap.newer_comm hagree]
  · rw [LWWMap.get, LWWMap.get, LWWMap.entry_merge, LWWMap.entry_merge,
      LWWMap.newer_newer hagree]

end

/-- Two nodes set a key, one of them again after its clock went backwards. -/
def backwardClock : List (ReplicaAction String (SetCall String ℕ ℤ)) :=
  [.perform "a" ⟨"k", 1, 5⟩, .share "a", .merge "b" 0, .perform "b" ⟨"k", 2, 3⟩,
    .perform "a" ⟨"k", 1, 5⟩]

theorem lwwmap_converges_backward :
    ∃ past, ∃ s : Replicas String (SetCall String ℕ ℤ) Unit (LWWMap String String ℕ ℤ),
      MapRun String String ℕ ℤ (.init LWWMap.replicaType) past s ∧
      (s.state "a").get "k" = some 1 ∧ (s.state "b").get "k" = some 2 ∧
      ((s.state "b").merge (s.state "a")).1.get "k" = some 1 := by
  obtain ⟨past, s, hrun, hallows, hs⟩ := exists_run_of_execWhere
    (Replicas.step LWWMap.replicaType) (Replicas.Allows FreshReading (fun _ => True))
    (Replicas.init LWWMap.replicaType) backwardClock
    (fun s => ((s.state "a").get "k", (s.state "b").get "k",
      ((s.state "a").merge (s.state "b")).1.get "k")) (some 1, some 2, some 1) (by decide)
  simp only [Prod.mk.injEq] at hs
  refine ⟨past, s, hrun, hs.1, hs.2.1, ?_⟩
  rw [← (lwwmap_converges hrun hallows "a" "b" "k").1]
  exact hs.2.2

/-- The clock of a node reads the same twice, and the first write was passed on in between. -/
def repeatedReading : List (ReplicaAction String (SetCall String ℕ ℤ)) :=
  [.perform "a" ⟨"k", 1, 5⟩, .share "a", .absorb "b" 0, .perform "a" ⟨"k", 2, 5⟩]

theorem lwwmap_repeated_reading_diverges :
    ∃ past, ∃ s : Replicas String (SetCall String ℕ ℤ) Unit (LWWMap String String ℕ ℤ),
      MapRun String String ℕ ℤ (.init LWWMap.replicaType) past s ∧
      ((s.state "a").merge (s.state "b")).1.get "k" = some 2 ∧
      ((s.state "b").merge (s.state "a")).1.get "k" = some 1 := by
  obtain ⟨past, s, hrun, hs⟩ := exists_run_of_exec (Replicas.step LWWMap.replicaType)
    (Replicas.init LWWMap.replicaType) repeatedReading
    (fun s => (((s.state "a").merge (s.state "b")).1.get "k",
      ((s.state "b").merge (s.state "a")).1.get "k")) (some 2, some 1) (by decide)
  rw [Prod.mk.injEq] at hs
  exact ⟨past, s, hrun, hs⟩

end Suprime
