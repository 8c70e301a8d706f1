import Mathlib.Data.String.Basic
import Suprime.Run
import Suprime.StoreMerge

namespace Suprime
set_option autoImplicit true

variable {T ν κ : Type} {α : Type u} [LinearOrder T] [LinearOrder ν] [DecidableEq κ]

/-- Every entry held by some store was written locally by its origin, no two writes share a
version, and every store's floor is above all versions that it has produced. -/
structure Provenance (store : ν → DistributedStore T ν κ α) (log : List (κ × Entry T ν α)) :
    Prop where
  nodeId : ∀ n, (store n).nodeId = n
  held : ∀ n k e, (store n).data.get k = some e → (k, e) ∈ log
  floor : ∀ p ∈ log, p.2.version.ts ≤ (store p.2.version.origin).highestTs
  unique : (log.map (fun p => p.2.version)).Nodup

namespace Provenance

variable {store : ν → DistributedStore T ν κ α} {log : List (κ × Entry T ν α)}

section
omit [LinearOrder ν]

theorem init [Timestamp T] :
    Provenance (fun n => .init n : ν → DistributedStore T ν κ α) [] where
  nodeId _ := rfl
  held _ _ _ h := by cases h
  floor _ h := by cases h
  unique := List.nodup_nil

theorem eq_of_version (h : Provenance store log) {p q : κ × Entry T ν α} (hp : p ∈ log)
    (hq : q ∈ log) (hv : p.2.version = q.2.version) : p = q :=
  List.inj_on_of_nodup_map h.unique hp hq hv

theorem version_ts_lt [Timestamp T] (h : Provenance store log) {p : κ × Entry T ν α}
    (hp : p ∈ log) (ho : p.2.version.origin = n) (clock : T) :
    p.2.version.ts < (store n).nextTs clock := by
  subst ho
  exact (h.floor p hp).trans_lt ((store _).highestTs_lt_nextTs clock)

end

theorem write [Timestamp T] (h : Provenance store log) (n : ν) (key : κ) (e : Entry T ν α)
    (clock : T) (he : e.version = ⟨(store n).nextTs clock, n⟩) :
    Provenance (Function.update store n ((store n).putLocal key e)) (log ++ [(key, e)]) where
  nodeId m := by
    by_cases hm : m = n
    · subst hm
      rw [Function.update_self]
      exact h.nodeId m
    · rw [Function.update_of_ne hm]
      exact h.nodeId m
  held m k x hx := by
    by_cases hm : m = n
    · subst hm
      rw [Function.update_self, DistributedStore.get_putLocal] at hx
      by_cases hk : k = key
      · rw [if_pos hk] at hx
        cases hx
        simp [hk]
      · rw [if_neg hk] at hx
        exact List.mem_append_left _ (h.held m k x hx)
    · rw [Function.update_of_ne hm] at hx
      exact List.mem_append_left _ (h.held m k x hx)
  floor p hp := by
    have hlt : (store n).highestTs < e.version.ts := by
      rw [he]
      exact (store n).highestTs_lt_nextTs clock
    rcases List.mem_append.1 hp with hp | hp
    · have hf := h.floor p hp
      by_cases hm : p.2.version.origin = n
      · rw [hm, Function.update_self]
        rw [hm] at hf
        exact hf.trans hlt.le
      · rw [Function.update_of_ne hm]
        exact hf
    · rw [List.mem_singleton] at hp
      subst hp
      have ho : e.version.origin = n := by rw [he]
      rw [ho, Function.update_self]
      exact le_rfl
  unique := by
    rw [List.map_append]
    apply h.unique.append (List.nodup_singleton _)
    apply List.disjoint_singleton.2
    intro hm
    obtain ⟨p, hp, hv⟩ := List.mem_map.1 hm
    change p.2.version = e.version at hv
    have ho : p.2.version.origin = n := by rw [hv, he]
    have hlt := h.version_ts_lt hp ho clock
    rw [hv, he] at hlt
    exact lt_irrefl _ hlt

theorem merge (h : Provenance store log) (n : ν) (l : List (κ × Entry T ν α))
    (hl : ∀ p ∈ l, p ∈ log) :
    Provenance (Function.update store n ((store n).merge l).store) log where
  nodeId m := by
    by_cases hm : m = n
    · subst hm
      rw [Function.update_self, DistributedStore.merge_nodeId]
      exact h.nodeId m
    · rw [Function.update_of_ne hm]
      exact h.nodeId m
  held m k x hx := by
    by_cases hm : m = n
    · subst hm
      rw [Function.update_self] at hx
      rcases DistributedStore.get_merge_mem hx with hs | hs
      · exact h.held m k x hs
      · exact hl _ hs
    · rw [Function.update_of_ne hm] at hx
      exact h.held m k x hx
  floor p hp := by
    have hf := h.floor p hp
    by_cases hm : p.2.version.origin = n
    · rw [hm, Function.update_self]
      rw [hm] at hf
      exact hf.trans ((store n).highestTs_le_merge l)
    · rw [Function.update_of_ne hm]
      exact hf
  unique := h.unique

end Provenance

/-- The entry that a local write to `key` replaces, if any, is older than the reading of the
clock or, when the clock lags behind the node's own last write, than that write nudged. -/
def DistributedStore.Outdates [Timestamp T] (s : DistributedStore T ν κ α) (key : κ)
    (clock : T) : Prop :=
  ∀ e, s.data.get key = some e →
    (s.highestTs < clock → e.version < ⟨clock, s.nodeId⟩) ∧
    (clock ≤ s.highestTs → e.version < ⟨Timestamp.nudge s.highestTs, s.nodeId⟩)

theorem DistributedStore.outdates_iff [Timestamp T] (s : DistributedStore T ν κ α) (key : κ)
    (clock : T) : s.Outdates key clock ↔
      ∀ e, s.data.get key = some e → e.version < ⟨s.nextTs clock, s.nodeId⟩ := by
  apply forall_congr'
  intro e
  by_cases h : clock ≤ s.highestTs
  · simp [nextTs, h]
  · simp [nextTs, h, not_le.1 h]

/-- Stores of any number of nodes and every digest that one of them has ever built. The last
two fields are history: what each store wrote or was given, and every local write. -/
structure StoreSwarm (T ν κ : Type) (α : Type u) where
  store : ν → DistributedStore T ν κ α
  digests : List (Digest T ν κ α)
  seen : ν → List (κ × Entry T ν α)
  written : List (κ × Entry T ν α)

/-- Local writes with the reading of the clock, and deliveries of the `i`-th digest. -/
inductive StoreAction (T ν κ : Type) (α : Type u)
  | set (n : ν) (key : κ) (value : α) (clock : T)
  | delete (n : ν) (key : κ) (clock : T)
  | digest (n : ν)
  | mergeEntry (n : ν) (i : ℕ) (key : κ)
  | applyDigest (n : ν) (i : ℕ)

/-- The action is a local write of node `n` to `key`. -/
def StoreAction.WritesTo (n : ν) (key : κ) : StoreAction T ν κ α → Prop
  | .set m k _ _ => m = n ∧ k = key
  | .delete m k _ => m = n ∧ k = key
  | _ => False

namespace StoreSwarm

variable [Timestamp T] [PyNone α]

def init : StoreSwarm T ν κ α := ⟨fun n => .init n, [], fun _ => [], []⟩

/-- Node `n` committed `pairs` by local writes. -/
def wrote (s : StoreSwarm T ν κ α) (n : ν) (st : DistributedStore T ν κ α)
    (pairs : List (κ × Entry T ν α)) : StoreSwarm T ν κ α :=
  { s with
    store := Function.update s.store n st
    seen := Function.update s.seen n (s.seen n ++ pairs)
    written := s.written ++ pairs }

/-- Node `n` was given `pairs`. -/
def given (s : StoreSwarm T ν κ α) (n : ν) (st : DistributedStore T ν κ α)
    (pairs : List (κ × Entry T ν α)) : StoreSwarm T ν κ α :=
  { s with
    store := Function.update s.store n st
    seen := Function.update s.seen n (s.seen n ++ pairs) }

def step (s : StoreSwarm T ν κ α) : StoreAction T ν κ α → Option (StoreSwarm T ν κ α)
  | .set n key value clock =>
    let o := (s.store n).set key value clock
    some (s.wrote n o.store o.committed)
  | .delete n key clock =>
    let o := (s.store n).delete key clock
    some (s.wrote n o.store o.committed)
  | .digest n => some { s with digests := s.digests ++ [(s.store n).digest] }
  | .mergeEntry n i key => do
    let d ← s.digests[i]?
    let x ← d.get key
    let e := Entry.fromDict x
    some (s.given n ((s.store n).mergeEntry key e).store [(key, e)])
  | .applyDigest n i => do
    let d ← s.digests[i]?
    some (s.given n ((s.store n).applyDigest d).store
      (d.items.map (fun p => (p.1, Entry.fromDict p.2))))

/-- What a step must meet: a local write must be newer than the entry that it replaces. -/
def Meets (s : StoreSwarm T ν κ α) : StoreAction T ν κ α → Prop
  | .set n key _ clock => (s.store n).Outdates key clock
  | .delete n key clock => (s.store n).Outdates key clock
  | _ => True

def pairsOf (d : Digest T ν κ α) : List (κ × Entry T ν α) :=
  d.items.map (fun p => (p.1, Entry.fromDict p.2))

theorem step_cases {s s' : StoreSwarm T ν κ α} {a : StoreAction T ν κ α}
    (h : s.step a = some s') :
    (∃ n key e clock, e.version = ⟨(s.store n).nextTs clock, (s.store n).nodeId⟩ ∧
      (s.Meets a ↔ (s.store n).Outdates key clock) ∧
      s' = s.wrote n ((s.store n).putLocal key e) [(key, e)]) ∨
    (s.Meets a ∧ s' = s) ∨
    (∃ n, s.Meets a ∧ s' = { s with digests := s.digests ++ [(s.store n).digest] }) ∨
    (∃ n l, s.Meets a ∧ (∃ d ∈ s.digests, ∀ p ∈ l, p ∈ pairsOf d) ∧
      s' = s.given n ((s.store n).merge l).store l) := by
  cases a with
  | set n key value clock =>
    cases h
    exact .inl ⟨n, key, _, clock, rfl, Iff.rfl, rfl⟩
  | delete n key clock =>
    simp only [step, Option.some.injEq] at h
    cases hk : (s.store n).data.get key with
    | none =>
      rw [DistributedStore.delete_of_none hk] at h
      refine .inr (.inl ⟨?_, ?_⟩)
      · intro e he
        rw [hk] at he
        cases he
      · rw [← h]
        simp [wrote]
    | some c =>
      rw [DistributedStore.delete_of_some hk] at h
      exact .inl ⟨n, key, _, clock, rfl, Iff.rfl, h.symm⟩
  | digest n =>
    cases h
    exact .inr (.inr (.inl ⟨n, trivial, rfl⟩))
  | mergeEntry n i key =>
    obtain ⟨d, hd, h⟩ := Option.bind_eq_some_iff.1 h
    obtain ⟨x, hx, h⟩ := Option.bind_eq_some_iff.1 h
    cases h
    refine .inr (.inr (.inr ⟨n, [(key, Entry.fromDict x)], trivial, ?_, rfl⟩))
    refine ⟨d, List.mem_of_getElem? hd, ?_⟩
    intro p hp
    rw [List.mem_singleton] at hp
    subst hp
    exact List.mem_map.2 ⟨_, Dict.mem_items.2 hx, rfl⟩
  | applyDigest n i =>
    obtain ⟨d, hd, h⟩ := Option.bind_eq_some_iff.1 h
    cases h
    exact .inr (.inr (.inr ⟨n, pairsOf d, trivial,
      ⟨d, List.mem_of_getElem? hd, fun p hp => hp⟩, rfl⟩))

/-- What every run keeps: all entries in stores and digests come from logged local writes. -/
structure Traced (s : StoreSwarm T ν κ α) : Prop where
  prov : Provenance s.store s.written
  digests : ∀ d ∈ s.digests, ∀ p ∈ pairsOf d, p ∈ s.written
  seen : ∀ n, ∀ p ∈ s.seen n, p ∈ s.written

section
omit [LinearOrder ν] [LinearOrder T] [DecidableEq κ] [Timestamp T]

theorem pairsOf_digest (st : DistributedStore T ν κ α) : pairsOf st.digest = st.data.items := by
  simp only [pairsOf, DistributedStore.digest, Dict.map, List.map_map, Function.comp_def,
    Entry.fromDict_toDict, Prod.mk.eta, List.map_id']

end

section
omit [LinearOrder ν]

theorem Traced.init : (StoreSwarm.init : StoreSwarm T ν κ α).Traced where
  prov := .init
  digests d hd := by cases hd
  seen n p hp := by cases hp

end

theorem Traced.step {s s' : StoreSwarm T ν κ α} {a : StoreAction T ν κ α} (h : s.Traced)
    (hs : s.step a = some s') : s'.Traced := by
  rcases step_cases hs with ⟨n, key, e, clock, hv, _, rfl⟩ | ⟨_, rfl⟩ | ⟨n, _, rfl⟩ |
    ⟨n, l, _, ⟨d, hd, hl⟩, rfl⟩
  · rw [h.prov.nodeId] at hv
    refine ⟨h.prov.write n key e clock hv, ?_, ?_⟩
    · intro d hd p hp
      exact List.mem_append_left _ (h.digests d hd p hp)
    · intro m p hp
      by_cases hm : m = n
      · subst hm
        simp only [wrote, Function.update_self] at hp ⊢
        exact List.mem_append.2 ((List.mem_append.1 hp).imp_left (h.seen m p))
      · simp only [wrote, Function.update_of_ne hm] at hp ⊢
        exact List.mem_append_left _ (h.seen m p hp)
  · exact h
  · refine ⟨h.prov, ?_, h.seen⟩
    intro d hd p hp
    rcases List.mem_append.1 hd with hd | hd
    · exact h.digests d hd p hp
    · rw [List.mem_singleton] at hd
      subst hd
      rw [pairsOf_digest] at hp
      exact h.prov.held n p.1 p.2 (Dict.mem_items.1 hp)
  · have hw : ∀ p ∈ l, p ∈ s.written := fun p hp => h.digests d hd p (hl p hp)
    refine ⟨h.prov.merge n l hw, h.digests, ?_⟩
    intro m p hp
    by_cases hm : m = n
    · subst hm
      simp only [given, Function.update_self] at hp
      rcases List.mem_append.1 hp with hp | hp
      · exact h.seen m p hp
      · exact hw p hp
    · simp only [given, Function.update_of_ne hm] at hp
      exact h.seen m p hp

theorem Traced.of_run {s : StoreSwarm T ν κ α} (h : Run StoreSwarm.step StoreSwarm.init past s) :
    s.Traced :=
  h.invariant (C := fun _ _ => True) (fun _ _ => trivial) .init (fun _ _ _ ht _ hs => ht.step hs)

/-- Every store holds, for each key, the newest of all it has written or been given. -/
def SeenNewest (s : StoreSwarm T ν κ α) : Prop :=
  ∀ n k, IsNewest Entry.version {e | (k, e) ∈ s.seen n} ((s.store n).data.get k)

theorem SeenNewest.step {s s' : StoreSwarm T ν κ α} {a : StoreAction T ν κ α}
    (ht : s.Traced) (h : s.SeenNewest) (hm : s.Meets a) (hs : s.step a = some s') :
    s'.SeenNewest := by
  intro m k
  rcases step_cases hs with ⟨n, key, e, clock, hv, hmeets, rfl⟩ | ⟨_, rfl⟩ | ⟨n, _, rfl⟩ |
    ⟨n, l, _, _, rfl⟩
  · by_cases hn : m = n
    · subst hn
      simp only [wrote, Function.update_self, DistributedStore.get_putLocal]
      by_cases hk : k = key
      · subst hk
        rw [if_pos rfl]
        have hlt := (DistributedStore.outdates_iff _ _ _).1 (hmeets.1 hm)
        apply (IsNewest.overwrite (h m k) (e := e) ?_).congr
        · intro x
          simp [or_comm, eq_comm]
        · intro c hc
          rw [hv]
          exact (hlt c hc).le
      · rw [if_neg hk]
        apply (h m k).congr
        intro x
        simp [hk]
    · simp only [wrote, Function.update_of_ne hn]
      exact h m k
  · exact h m k
  · exact h m k
  · by_cases hn : m = n
    · subst hn
      simp only [given, Function.update_self]
      apply (DistributedStore.isNewest_merge (h m) l k).congr
      intro x
      simp [DistributedStore.offered]
    · simp only [given, Function.update_of_ne hn]
      exact h m k

/-- A step between two states in which every store holds its newest entries meets the
condition: a local write that was not newer would have replaced a greater version. -/
theorem SeenNewest.meets {s s' : StoreSwarm T ν κ α} {a : StoreAction T ν κ α} (ht : s.Traced)
    (h : s.SeenNewest) (h' : s'.SeenNewest) (hs : s.step a = some s') : s.Meets a := by
  rcases step_cases hs with ⟨n, key, e, clock, hv, hmeets, rfl⟩ | ⟨hm, _⟩ | ⟨_, hm, _⟩ |
    ⟨_, _, hm, _⟩
  · apply hmeets.2
    rw [DistributedStore.outdates_iff]
    intro c hc
    have hmem := (h n key).mem hc
    obtain ⟨e', he', hle⟩ := (h' n key).le (x := c) (by
      simp only [wrote, Function.update_self]
      exact List.mem_append_left _ hmem)
    simp only [wrote, Function.update_self, DistributedStore.get_putLocal, if_pos,
      Option.some.injEq] at he'
    subst e'
    rw [← hv]
    apply lt_of_le_of_ne hle
    intro heq
    have hlog := ht.prov.held n key c hc
    have ho : c.version.origin = n := by rw [heq, hv, ht.prov.nodeId]
    have hlt := ht.prov.version_ts_lt hlog ho clock
    rw [heq, hv] at hlt
    exact lt_irrefl _ hlt
  · exact hm
  · exact hm
  · exact hm

section
omit [PyNone α]

theorem SeenNewest.init : (StoreSwarm.init : StoreSwarm T ν κ α).SeenNewest := by
  intro n k
  exact Set.eq_empty_of_forall_notMem (fun e he => by cases he)

end

/-- A run keeps every store newest in all of its states exactly when all its local writes are
newer than what they replace. -/
theorem seenNewest_iff_meets {s : StoreSwarm T ν κ α}
    (h : Run step StoreSwarm.init past s) :
    (s.SeenNewest ∧ ∀ p ∈ past, p.1.SeenNewest) ↔ ∀ p ∈ past, p.1.Meets p.2 := by
  induction h with
  | start => simp [SeenNewest.init]
  | @next past s a s' hr hs ih =>
    have ht := Traced.of_run hr
    constructor
    · rintro ⟨hs', hall⟩
      have hcur := hall _ List.mem_cons_self
      have hpast := ih.1 ⟨hcur, fun p hp => hall p (List.mem_cons_of_mem _ hp)⟩
      intro p hp
      rcases List.mem_cons.1 hp with rfl | hp
      · exact hcur.meets ht hs' hs
      · exact hpast p hp
    · intro hm
      obtain ⟨hcur, hall⟩ := ih.2 (fun p hp => hm p (List.mem_cons_of_mem _ hp))
      refine ⟨hcur.step ht (hm _ List.mem_cons_self) hs, ?_⟩
      intro p hp
      rcases List.mem_cons.1 hp with rfl | hp
      · exact hcur
      · exact hall p hp

section
omit [Timestamp T]

theorem SeenNewest.agree {s : StoreSwarm T ν κ α} (ht : s.Traced) (h : s.SeenNewest)
    (hmn : ∀ p, p ∈ s.seen m ↔ p ∈ s.seen n) : (s.store m).data.Same (s.store n).data := by
  intro k
  apply (h m k).unique ((h n k).congr (fun e => hmn (k, e)))
  intro e he e' he' hv
  have hp := ht.prov.eq_of_version (ht.seen m _ he) (ht.seen m _ he') hv
  exact (Prod.mk.inj hp).2

end

section
omit [Timestamp T] [PyNone α]

theorem SeenNewest.merge_seen {s : StoreSwarm T ν κ α} (h : s.SeenNewest)
    (he : (k, e) ∈ s.seen n) : ((s.store n).mergeEntry k e).store = s.store n := by
  obtain ⟨c, hc, hle⟩ := (h n k).le he
  rcases (s.store n).mergeEntry_cases k e with ⟨hlt, _⟩ | ⟨_, heq⟩
  · exact absurd hle (not_le.2 (hlt c hc))
  · rw [heq]

end

theorem replaced_lt {s s' : StoreSwarm T ν κ α} {a : StoreAction T ν κ α} (hm : s.Meets a)
    (hw : a.WritesTo n k) (hs : s.step a = some s') (hc : (s.store n).data.get k = some c) :
    ∃ e, (s'.store n).data.get k = some e ∧ c.version < e.version := by
  cases a with
  | set m key value clock =>
    obtain ⟨rfl, rfl⟩ := hw
    cases hs
    refine ⟨⟨value, ⟨(s.store m).nextTs clock, (s.store m).nodeId⟩, false⟩, ?_,
      (DistributedStore.outdates_iff _ _ _).1 hm c hc⟩
    simp [wrote, DistributedStore.set_store, DistributedStore.get_putLocal]
  | delete m key clock =>
    obtain ⟨rfl, rfl⟩ := hw
    simp only [step, DistributedStore.delete_of_some hc, Option.some.injEq] at hs
    subst hs
    refine ⟨⟨pyNone, ⟨(s.store m).nextTs clock, (s.store m).nodeId⟩, true⟩, ?_,
      (DistributedStore.outdates_iff _ _ _).1 hm c hc⟩
    simp [wrote, DistributedStore.get_putLocal]
  | digest m => cases hw
  | mergeEntry m i key => cases hw
  | applyDigest m i => cases hw

end StoreSwarm

/-- Stores move backwards exactly through local writes that are not newer than what they
replace. Without such writes replicas that saw the same entries agree, nothing already seen
can undo a write, and every local write outranks the entry that it replaced. -/
theorem stores_never_move_back_iff [PyNone α] {s : StoreSwarm ℚ ν κ α}
    (h : Run StoreSwarm.step StoreSwarm.init past s) :
    ((s.SeenNewest ∧ ∀ p ∈ past, p.1.SeenNewest) ↔ ∀ p ∈ past, p.1.Meets p.2) ∧
    ((∀ p ∈ past, p.1.Meets p.2) →
      (∀ m n, (∀ p, p ∈ s.seen m ↔ p ∈ s.seen n) → (s.store m).data.Same (s.store n).data) ∧
      (∀ n k e, (k, e) ∈ s.seen n → ((s.store n).mergeEntry k e).store = s.store n) ∧
      (∀ p ∈ past, ∀ n k, p.2.WritesTo n k → ∀ s', p.1.step p.2 = some s' →
        ∀ c, (p.1.store n).data.get k = some c →
          ∃ e, (s'.store n).data.get k = some e ∧ c.version < e.version)) := by
  refine ⟨StoreSwarm.seenNewest_iff_meets h, fun hm => ?_⟩
  have hs := ((StoreSwarm.seenNewest_iff_meets h).2 hm).1
  refine ⟨fun m n => hs.agree (.of_run h), fun n k e => hs.merge_seen, ?_⟩
  intro p hp n k hw s' hs' c hc
  exact StoreSwarm.replaced_lt (hm p hp) hw hs' hc

/-- Node `b` writes at time 100 and node `a`, whose clock shows `clock`, takes that entry in
and writes to the same key. -/
def skewedWrites (clock : ℚ) : List (StoreAction ℚ String String (Option ℕ)) :=
  [.set "b" "k" (some 1) 100, .digest "b", .applyDigest "a" 0, .set "a" "k" (some 2) clock]

theorem stores_never_move_back_in_step :
    ∃ past, ∃ s : StoreSwarm ℚ String String (Option ℕ),
      Run StoreSwarm.step StoreSwarm.init past s ∧
      (s.store "a").data.get "k" = some ⟨some 2, ⟨101, "a"⟩, false⟩ ∧
      ((s.SeenNewest ∧ ∀ p ∈ past, p.1.SeenNewest) ↔ ∀ p ∈ past, p.1.Meets p.2) := by
  obtain ⟨past, s, hr, hs⟩ := exists_run_of_exec StoreSwarm.step StoreSwarm.init
    (skewedWrites 101) (fun s => (s.store "a").data.get "k") (some ⟨some 2, ⟨101, "a"⟩, false⟩)
    (by decide)
  exact ⟨past, s, hr, hs, (stores_never_move_back_iff hr).1⟩

/-- With a clock that lags behind, the write of `a` gets the lower version, so the entry of `b`
that `a` had seen before undoes it when it is delivered once more. -/
theorem lagging_write_is_undone :
    (∃ past, ∃ s : StoreSwarm ℚ String String (Option ℕ),
      Run StoreSwarm.step StoreSwarm.init past s ∧ ¬ s.SeenNewest) ∧
    (exec StoreSwarm.step StoreSwarm.init (skewedWrites 5)).map
        (fun s => (s.store "a").get "k" none) = some (some 2) ∧
    (exec StoreSwarm.step StoreSwarm.init (skewedWrites 5 ++ [.applyDigest "a" 0])).map
        (fun s => (s.store "a").get "k" none) = some (some 1) := by
  refine ⟨?_, by decide, by decide⟩
  obtain ⟨past, s, hr, hs⟩ := exists_run_of_exec StoreSwarm.step StoreSwarm.init
    (skewedWrites 5) (fun s => ((s.store "a").data.get "k", s.seen "a"))
    (some ⟨some 2, ⟨5, "a"⟩, false⟩,
      [("k", ⟨some 1, ⟨100, "b"⟩, false⟩), ("k", ⟨some 2, ⟨5, "a"⟩, false⟩)])
    (by decide)
  refine ⟨past, s, hr, fun hn => ?_⟩
  obtain ⟨hget, hseen⟩ := Prod.mk.inj hs
  obtain ⟨e, he, hle⟩ := (hn "a" "k").le (x := ⟨some 1, ⟨100, "b"⟩, false⟩) (by
    change ("k", _) ∈ s.seen "a"
    rw [hseen]
    exact List.mem_cons_self)
  rw [hget] at he
  cases he
  exact absurd hle (by decide)

end Suprime
