import Mathlib.Data.String.Basic
import Suprime.Run
import Suprime.Store

namespace Suprime
set_option autoImplicit true

variable {ν κ : Type} {α : Type u} [LinearOrder ν] [DecidableEq κ] [PyNone α]

namespace DistributedStore

/-- The store without the tombstones that are at least `minAge` old, and their number. -/
def collectGarbage (s : DistributedStore ℚ ν κ α) (minAge clock : ℚ) :
    DistributedStore ℚ ν κ α × ℕ :=
  let stale := (s.data.items.filter
    (fun p => p.2.deleted && decide (minAge ≤ clock - p.2.version.ts))).map Prod.fst
  ({ s with data := stale.foldl Dict.erase s.data }, stale.length)

section
omit [PyNone α]

theorem committed_le_highestTs {T : Type} [LinearOrder T] (s : DistributedStore T ν κ α)
    (l : List (κ × Entry T ν α)) :
    ∀ p ∈ (s.merge l).committed, p.2.version.origin = s.nodeId →
      p.2.version.ts ≤ (s.merge l).store.highestTs := by
  induction l generalizing s with
  | nil =>
    intro p hp
    cases hp
  | cons q l ih =>
    intro p hp ho
    rcases List.mem_append.1 hp with hp | hp
    · apply le_trans _ (highestTs_le_merge (s.mergeEntry q.1 q.2).store l)
      rcases s.mergeEntry_cases q.1 q.2 with ⟨_, he⟩ | ⟨_, he⟩
      · rw [he, List.mem_singleton] at hp
        subst hp
        rw [he]
        change q.2.version.ts ≤ if q.2.version.origin = s.nodeId ∧ q.2.version.ts > s.highestTs
          then q.2.version.ts else s.highestTs
        split
        · exact le_rfl
        · rename_i hn
          exact not_lt.1 (fun hlt => hn ⟨ho, hlt⟩)
      · rw [he] at hp
        cases hp
    · exact ih _ p hp (ho.trans (mergeEntry_nodeId s q.1 q.2).symm)

end

end DistributedStore

/-- Stores of any number of nodes. The last two fields are history: the version of every commit
that `set` or `delete` made, and the versions with its own origin that each store has produced or
accepted. -/
structure VersionedStores (ν κ : Type) (α : Type u) where
  store : ν → DistributedStore ℚ ν κ α
  minted : List (Version ℚ ν)
  own : ν → List (Version ℚ ν)

/-- Local writes with the reading of the clock, merges of any entry and of any digest, and garbage
collection. -/
inductive VersionAction (ν κ : Type) (α : Type u)
  | set (n : ν) (key : κ) (value : α) (clock : ℚ)
  | delete (n : ν) (key : κ) (clock : ℚ)
  | mergeEntry (n : ν) (key : κ) (entry : Entry ℚ ν α)
  | applyDigest (n : ν) (d : Digest ℚ ν κ α)
  | collectGarbage (n : ν) (minAge clock : ℚ)

namespace VersionedStores

def init : VersionedStores ν κ α := ⟨fun n => .init n, [], fun _ => []⟩

/-- The versions of commits that carry the origin `n`. -/
def ownVersions (n : ν) (committed : List (κ × Entry ℚ ν α)) : List (Version ℚ ν) :=
  (committed.map (fun p => p.2.version)).filter (fun v => v.origin = n)

/-- Node `n` made commits by a local write. -/
def wrote (s : VersionedStores ν κ α) (n : ν) (st : DistributedStore ℚ ν κ α)
    (committed : List (κ × Entry ℚ ν α)) : VersionedStores ν κ α where
  store := Function.update s.store n st
  minted := s.minted ++ committed.map (fun p => p.2.version)
  own := Function.update s.own n (s.own n ++ ownVersions n committed)

/-- Node `n` accepted what a merge committed. -/
def accepted (s : VersionedStores ν κ α) (n : ν) (st : DistributedStore ℚ ν κ α)
    (committed : List (κ × Entry ℚ ν α)) : VersionedStores ν κ α where
  store := Function.update s.store n st
  minted := s.minted
  own := Function.update s.own n (s.own n ++ ownVersions n committed)

def step (s : VersionedStores ν κ α) : VersionAction ν κ α → Option (VersionedStores ν κ α)
  | .set n key value clock =>
    let o := (s.store n).set key value clock
    some (s.wrote n o.store o.committed)
  | .delete n key clock =>
    let o := (s.store n).delete key clock
    some (s.wrote n o.store o.committed)
  | .mergeEntry n key entry =>
    let o := (s.store n).mergeEntry key entry
    some (s.accepted n o.store o.committed)
  | .applyDigest n d =>
    let o := (s.store n).applyDigest d
    some (s.accepted n o.store o.committed)
  | .collectGarbage n minAge clock =>
    some { s with store := Function.update s.store n ((s.store n).collectGarbage minAge clock).1 }

theorem step_cases {s s' : VersionedStores ν κ α} (h : s.step a = some s') :
    (∃ n key e clock, e.version = ⟨(s.store n).nextTs clock, (s.store n).nodeId⟩ ∧
      s' = s.wrote n ((s.store n).putLocal key e) [(key, e)]) ∨
    (s' = s) ∨
    (∃ n l, s' = s.accepted n ((s.store n).merge l).store ((s.store n).merge l).committed) ∨
    ∃ n data, s' = { s with store := Function.update s.store n { s.store n with data } } := by
  cases a with
  | set n key value clock =>
    cases h
    exact .inl ⟨n, key, _, clock, rfl, rfl⟩
  | delete n key clock =>
    simp only [step, Option.some.injEq] at h
    cases hk : (s.store n).data.get key with
    | none =>
      rw [DistributedStore.delete_of_none hk] at h
      refine .inr (.inl ?_)
      rw [← h]
      simp [wrote, ownVersions]
    | some c =>
      rw [DistributedStore.delete_of_some hk] at h
      exact .inl ⟨n, key, _, clock, rfl, h.symm⟩
  | mergeEntry n key entry =>
    cases h
    refine .inr (.inr (.inl ⟨n, [(key, entry)], ?_⟩))
    simp only [DistributedStore.merge, List.append_nil]
  | applyDigest n d =>
    cases h
    exact .inr (.inr (.inl ⟨n, _, rfl⟩))
  | collectGarbage n minAge clock =>
    cases h
    exact .inr (.inr (.inr ⟨n, _, rfl⟩))

/-- Every store's high-water mark is above its own versions, and all minted ones are among them. -/
structure Ok (s : VersionedStores ν κ α) : Prop where
  nodeId : ∀ n, (s.store n).nodeId = n
  floor : ∀ n, ∀ v ∈ s.own n, v.origin = n ∧ v.ts ≤ (s.store n).highestTs
  minted : ∀ v ∈ s.minted, v ∈ s.own v.origin
  unique : s.minted.Nodup

section
omit [PyNone α] [LinearOrder ν] [DecidableEq κ]

theorem Ok.init : (init : VersionedStores ν κ α).Ok where
  nodeId _ := rfl
  floor _ _ h := by cases h
  minted _ h := by cases h
  unique := List.nodup_nil

end

section
omit [PyNone α] [DecidableEq κ]

theorem mem_ownVersions {committed : List (κ × Entry ℚ ν α)} :
    v ∈ ownVersions n committed ↔ (∃ p ∈ committed, p.2.version = v) ∧ v.origin = n := by
  simp [ownVersions]

/-- The own versions of a store stay below its high-water mark when it is replaced by one with the
same or a higher mark. -/
theorem Ok.floor_update {s : VersionedStores ν κ α} (h : s.Ok) (n : ν)
    (st : DistributedStore ℚ ν κ α) (committed : List (κ × Entry ℚ ν α))
    (hhigh : (s.store n).highestTs ≤ st.highestTs)
    (hcom : ∀ p ∈ committed, p.2.version.origin = n → p.2.version.ts ≤ st.highestTs) (m : ν) :
    ∀ v ∈ Function.update s.own n (s.own n ++ ownVersions n committed) m,
      v.origin = m ∧ v.ts ≤ (Function.update s.store n st m).highestTs := by
  intro v hv
  by_cases hm : m = n
  · subst hm
    rw [Function.update_self] at hv ⊢
    rcases List.mem_append.1 hv with hv | hv
    · obtain ⟨ho, hle⟩ := h.floor m v hv
      exact ⟨ho, hle.trans hhigh⟩
    · obtain ⟨⟨p, hp, rfl⟩, ho⟩ := mem_ownVersions.1 hv
      exact ⟨ho, hcom p hp ho⟩
  · rw [Function.update_of_ne hm] at hv ⊢
    exact h.floor m v hv

theorem nodeId_update {s : VersionedStores ν κ α} (h : s.Ok) (n : ν)
    {st : DistributedStore ℚ ν κ α} (hst : st.nodeId = (s.store n).nodeId) (m : ν) :
    (Function.update s.store n st m).nodeId = m := by
  by_cases hm : m = n
  · subst hm
    rw [Function.update_self, hst]
    exact h.nodeId m
  · rw [Function.update_of_ne hm]
    exact h.nodeId m

theorem mem_own_update {s : VersionedStores ν κ α} (hv : v ∈ s.own m) (l : List (Version ℚ ν)) :
    v ∈ Function.update s.own n (s.own n ++ l) m := by
  by_cases hm : m = n
  · subst hm
    rw [Function.update_self]
    exact List.mem_append_left _ hv
  · rw [Function.update_of_ne hm]
    exact hv

theorem Ok.own_lt {s : VersionedStores ν κ α} (h : s.Ok) (n : ν) (clock : ℚ) :
    ∀ v ∈ s.own n, v < ⟨(s.store n).nextTs clock, (s.store n).nodeId⟩ := by
  intro v hv
  exact Version.le_of_ts_lt
    ((h.floor n v hv).2.trans_lt ((s.store n).highestTs_lt_nextTs clock))

end

section
omit [PyNone α]

theorem Ok.wrote {s : VersionedStores ν κ α} (h : s.Ok) (n : ν) (key : κ) {e : Entry ℚ ν α}
    (clock : ℚ) (he : e.version = ⟨(s.store n).nextTs clock, (s.store n).nodeId⟩) :
    (s.wrote n ((s.store n).putLocal key e) [(key, e)]).Ok := by
  have hts : e.version.ts = (s.store n).nextTs clock := congrArg Version.ts he
  have ho : e.version.origin = n := (congrArg Version.origin he).trans (h.nodeId n)
  constructor
  · exact nodeId_update h n rfl
  · apply h.floor_update n ((s.store n).putLocal key e) [(key, e)]
    · change (s.store n).highestTs ≤ e.version.ts
      rw [hts]
      exact ((s.store n).highestTs_lt_nextTs clock).le
    · intro p hp _
      rw [List.mem_singleton] at hp
      subst hp
      exact le_rfl
  · intro v hv
    rcases List.mem_append.1 hv with hv | hv
    · exact mem_own_update (h.minted v hv) _
    · rw [List.map_singleton, List.mem_singleton] at hv
      subst hv
      change e.version ∈ Function.update s.own n _ e.version.origin
      rw [ho, Function.update_self]
      apply List.mem_append_right
      exact mem_ownVersions.2 ⟨⟨_, List.mem_singleton_self _, rfl⟩, ho⟩
  · change (s.minted ++ [e.version]).Nodup
    apply List.Nodup.append h.unique (List.nodup_singleton _)
    intro v hv hv'
    rw [List.mem_singleton] at hv'
    subst hv'
    have hown := h.minted _ hv
    rw [ho] at hown
    exact lt_irrefl _ (he ▸ h.own_lt n clock _ hown)

theorem Ok.accepted {s : VersionedStores ν κ α} (h : s.Ok) (n : ν)
    (l : List (κ × Entry ℚ ν α)) :
    (s.accepted n ((s.store n).merge l).store ((s.store n).merge l).committed).Ok := by
  constructor
  · exact nodeId_update h n (DistributedStore.merge_nodeId _ l)
  · apply h.floor_update n _ _ (DistributedStore.highestTs_le_merge _ l)
    intro p hp ho
    exact DistributedStore.committed_le_highestTs _ l p hp (ho.trans (h.nodeId n).symm)
  · intro v hv
    exact mem_own_update (h.minted v hv) _
  · exact h.unique

end

theorem Ok.step {s s' : VersionedStores ν κ α} (h : s.Ok) (hs : s.step a = some s') : s'.Ok := by
  rcases step_cases hs with ⟨n, key, e, clock, he, rfl⟩ | rfl | ⟨n, l, rfl⟩ | ⟨n, data, rfl⟩
  · exact h.wrote n key clock he
  · exact h
  · exact h.accepted n l
  · refine ⟨nodeId_update h n rfl, fun m v hv => ?_, h.minted, h.unique⟩
    obtain ⟨ho, hle⟩ := h.floor m v hv
    refine ⟨ho, ?_⟩
    dsimp only
    by_cases hm : m = n
    · subst hm
      rw [Function.update_self]
      exact hle
    · rw [Function.update_of_ne hm]
      exact hle

theorem Ok.of_run {s : VersionedStores ν κ α}
    (h : Run VersionedStores.step VersionedStores.init past s) : s.Ok :=
  h.invariant (C := fun _ _ => True) (fun _ _ => trivial) .init
    (fun _ _ _ hs _ hstep => hs.step hstep)

theorem minted_step {s s' : VersionedStores ν κ α} (h : s.Ok) (hs : s.step a = some s') :
    s'.minted = s.minted ∨ ∃ v, s'.minted = s.minted ++ [v] ∧ ∀ w ∈ s.own v.origin, w < v := by
  rcases step_cases hs with ⟨n, key, e, clock, he, rfl⟩ | rfl | ⟨n, l, rfl⟩ | ⟨n, data, rfl⟩
  · refine .inr ⟨e.version, rfl, ?_⟩
    rw [he, h.nodeId n]
    intro w hw
    have hlt := h.own_lt n clock w hw
    rw [h.nodeId n] at hlt
    exact hlt
  · exact .inl rfl
  · exact .inl rfl
  · exact .inl rfl

/-- No two local commits anywhere carry the same version, and each step of a run that commits
locally does so with a version above every own version that its store has produced or accepted. -/
theorem versions_globally_unique {s : VersionedStores ν κ α}
    (h : Run VersionedStores.step VersionedStores.init past s) :
    s.minted.Nodup ∧ ∀ t a t', (t, a) ∈ past → t.step a = some t' →
      t'.minted = t.minted ∨ ∃ v, t'.minted = t.minted ++ [v] ∧ ∀ w ∈ t.own v.origin, w < v := by
  refine ⟨(Ok.of_run h).unique, fun t a t' hmem hstep => ?_⟩
  obtain ⟨pre, post, _, _, hpre, _, _⟩ := h.of_mem_past hmem
  exact minted_step (Ok.of_run hpre) hstep

/-- A write, its echo from a peer after garbage collection, and a write with the clock gone back. -/
def echoedWrites : List (VersionAction String String (Option ℕ)) :=
  [.set "a" "k" (some 1) 5, .delete "a" "k" 5, .collectGarbage "a" 0 6,
    .mergeEntry "a" "k" ⟨none, ⟨9, "a"⟩, true⟩, .set "a" "k" (some 2) 3, .set "b" "k" (some 3) 5]

theorem versions_globally_unique_echoed : ∃ past s,
    Run VersionedStores.step (init : VersionedStores String String (Option ℕ)) past s ∧
      s.minted.length = 4 ∧ s.minted.Nodup := by
  obtain ⟨past, s, hr, hs⟩ := exists_run_of_exec VersionedStores.step
    (init : VersionedStores String String (Option ℕ)) echoedWrites
    (fun s => s.minted.length) 4 (by decide)
  exact ⟨past, s, hr, hs, (versions_globally_unique hr).1⟩

end VersionedStores

end Suprime
