import Suprime.TombstoneGc

namespace Suprime
set_option autoImplicit true

variable {ν κ : Type} {α : Type u} [LinearOrder ν] [DecidableEq κ] [DecidableEq α] [PyNone α]

/-- The map of a subscriber after a call `callback(key, value)`: `None` takes the key out. -/
def replayCall (m : Dict κ α) (call : κ × α) : Dict κ α :=
  if call.2 = pyNone then m.erase call.1 else m.set call.1 call.2

def replayCalls (m : Dict κ α) (calls : List (κ × α)) : Dict κ α := calls.foldl replayCall m

/-- What the map of a subscriber has for a key. -/
def mirrored (m : Dict κ α) (key : κ) : α := (m.get key).getD pyNone

theorem mirrored_replayCall (m : Dict κ α) (call : κ × α) (key : κ) :
    mirrored (replayCall m call) key = if key = call.1 then call.2 else mirrored m key := by
  unfold mirrored replayCall
  by_cases hv : call.2 = pyNone
  · rw [if_pos hv, Dict.get_erase]
    split
    · exact hv.symm
    · rfl
  · rw [if_neg hv, Dict.get_set]
    split
    · rfl
    · rfl

theorem replayCalls_append (m : Dict κ α) (calls calls' : List (κ × α)) :
    replayCalls m (calls ++ calls') = replayCalls (replayCalls m calls) calls' :=
  List.foldl_append

namespace DistributedStore

section
omit [LinearOrder ν] [DecidableEq α] [PyNone α]

theorem get_of_entry {s s' : DistributedStore ℚ ν κ α} {key : κ}
    (h : s'.data.get key = s.data.get key) (default : α) :
    s'.get key default = s.get key default := by
  rw [get, h, get]

end

section
omit [LinearOrder ν] [DecidableEq α]

theorem get_putLocal_value (s : DistributedStore ℚ ν κ α) (key k : κ) (e : Entry ℚ ν α) :
    (s.putLocal key e).get k pyNone =
      if k = key then (if e.deleted then pyNone else e.value) else s.get k pyNone := by
  rw [get, get_putLocal]
  by_cases hk : k = key
  · rw [if_pos hk, if_pos hk]
  · rw [if_neg hk, if_neg hk, get]

end

/-- A merge that is accepted makes the entry the one of its key. -/
def Accepts {T : Type} [LinearOrder T] (s : DistributedStore T ν κ α) (key : κ)
    (entry : Entry T ν α) : Prop :=
  ∀ c, s.data.get key = some c → c.version < entry.version

/-- The merge of a tombstone takes a value away. -/
def Silences (s : DistributedStore ℚ ν κ α) (key : κ) (entry : Entry ℚ ν α) : Prop :=
  entry.deleted = true ∧ s.get key pyNone ≠ pyNone ∧ s.Accepts key entry

/-- The map of a subscriber has what the store returns for a key. -/
def Mirrors (s : DistributedStore ℚ ν κ α) (m : Dict κ α) (key : κ) : Prop :=
  mirrored m key = s.get key pyNone

section
omit [LinearOrder ν]

theorem Mirrors.told {s s' : DistributedStore ℚ ν κ α} {m : Dict κ α} {key k : κ} {v : α}
    (h : s.Mirrors m k) (hs : s'.get k pyNone = if k = key then v else s.get k pyNone) :
    s'.Mirrors (replayCalls m [(key, v)]) k := by
  rw [Mirrors, hs]
  refine (mirrored_replayCall m (key, v) k).trans ?_
  by_cases hk : k = key
  · rw [if_pos hk, if_pos hk]
  · rw [if_neg hk, if_neg hk]
    exact h

end

theorem mergeEntry_other (s : DistributedStore ℚ ν κ α) (m : Dict κ α) {key k : κ} (hk : k ≠ key)
    (e : Entry ℚ ν α) :
    (s.mergeEntry key e).store.data.get k = s.data.get k ∧
      mirrored (replayCalls m (s.mergeEntry key e).notified) k = mirrored m k := by
  refine ⟨by rw [get_mergeEntry, if_neg hk], ?_⟩
  rcases s.mergeEntry_cases key e with ⟨_, he⟩ | ⟨_, he⟩
  · rw [he]
    cases hd : e.deleted with
    | true => rfl
    | false =>
      refine (mirrored_replayCall m (key, e.value) k).trans ?_
      rw [if_neg hk]
  · rw [he]
    rfl

theorem mirrors_mergeEntry_other (s : DistributedStore ℚ ν κ α) (m : Dict κ α) {key k : κ}
    (hk : k ≠ key) (e : Entry ℚ ν α) :
    (s.mergeEntry key e).store.Mirrors (replayCalls m (s.mergeEntry key e).notified) k ↔
      s.Mirrors m k := by
  obtain ⟨hdata, hmap⟩ := s.mergeEntry_other m hk e
  rw [Mirrors, hmap, get_of_entry hdata, Mirrors]

theorem mirrors_mergeEntry {s : DistributedStore ℚ ν κ α} {m : Dict κ α} {key : κ}
    (h : s.Mirrors m key) (e : Entry ℚ ν α) :
    (s.mergeEntry key e).store.Mirrors (replayCalls m (s.mergeEntry key e).notified) key ↔
      ¬ s.Silences key e := by
  rcases s.mergeEntry_cases key e with ⟨hlt, he⟩ | ⟨⟨c, hc, hle⟩, he⟩
  · have hget : (s.mergeEntry key e).store.get key pyNone =
        if e.deleted then pyNone else e.value := by
      rw [get, he]
      dsimp only
      rw [Dict.get_set_self]
    cases hd : e.deleted with
    | false =>
      refine iff_of_true ?_ (fun hs => ?_)
      · rw [Mirrors, hget, he, hd]
        refine (mirrored_replayCall m (key, e.value) key).trans ?_
        rw [if_pos rfl]
        rfl
      · have htrue := hs.1
        rw [hd] at htrue
        cases htrue
    | true =>
      have hmap : mirrored (replayCalls m (s.mergeEntry key e).notified) key =
          s.get key pyNone := by
        rw [he, hd]
        exact h
      rw [Mirrors, hget, hd, if_pos rfl, hmap]
      constructor
      · intro hnone hs
        exact hs.2.1 hnone
      · intro hno
        by_contra hvalue
        exact hno ⟨hd, hvalue, hlt⟩
  · rw [he]
    refine iff_of_true h (fun hs => ?_)
    exact not_lt.2 hle (hs.2.2 c hc)

theorem mirrors_merge_other {l : List (κ × Entry ℚ ν α)} {k : κ} (hk : k ∉ l.map Prod.fst)
    (s : DistributedStore ℚ ν κ α) (m : Dict κ α) :
    (s.merge l).store.Mirrors (replayCalls m (s.merge l).notified) k ↔ s.Mirrors m k := by
  induction l generalizing s m with
  | nil => rfl
  | cons p l ih =>
    obtain ⟨hp, hl⟩ := not_or.1 (fun h => hk (List.mem_cons.2 h))
    rw [merge_cons, merge]
    dsimp only
    rw [replayCalls_append, ih hl]
    exact s.mirrors_mergeEntry_other m hp p.2

theorem mirrors_merge {l : List (κ × Entry ℚ ν α)} (hnd : (l.map Prod.fst).Nodup)
    {s : DistributedStore ℚ ν κ α} {m : Dict κ α} {k : κ} (h : s.Mirrors m k) :
    (s.merge l).store.Mirrors (replayCalls m (s.merge l).notified) k ↔
      ∀ e, (k, e) ∈ l → ¬ s.Silences k e := by
  induction l generalizing s m with
  | nil => exact iff_of_true h (fun e he => by cases he)
  | cons p l ih =>
    obtain ⟨hp, hnd⟩ := List.nodup_cons.1 hnd
    rw [merge_cons, merge]
    dsimp only
    rw [replayCalls_append]
    by_cases hk : k = p.1
    · subst hk
      rw [mirrors_merge_other hp, mirrors_mergeEntry h]
      constructor
      · intro hno e he
        cases List.mem_cons.1 he with
        | inl he =>
          rw [← he] at hno
          exact hno
        | inr he => exact absurd (List.mem_map_of_mem he) hp
      · intro hall
        exact hall p.2 List.mem_cons_self
    · rw [ih hnd ((s.mirrors_mergeEntry_other m hk p.2).2 h)]
      obtain ⟨hdata, -⟩ := s.mergeEntry_other m hk p.2
      have hsame : ∀ e, (s.mergeEntry p.1 p.2).store.Silences k e ↔ s.Silences k e := by
        intro e
        rw [Silences, Accepts, get_of_entry hdata, hdata]
        rfl
      simp only [hsame, List.mem_cons]
      constructor
      · intro hall e he
        cases he with
        | inl he => exact absurd (congrArg Prod.fst he) hk
        | inr he => exact hall e he
      · intro hall e he
        exact hall e (.inr he)

section
omit [LinearOrder ν] [DecidableEq α] [PyNone α]

theorem get_collectGarbage (s : DistributedStore ℚ ν κ α) (minAge clock : ℚ) (k : κ) (default : α) :
    (s.collectGarbage minAge clock).1.get k default = s.get k default := by
  unfold collectGarbage
  dsimp only
  generalize hstale : (s.data.items.filter
    (fun p => p.2.deleted && decide (minAge ≤ clock - p.2.version.ts))).map Prod.fst = stale
  rw [get, Dict.get_foldl_erase]
  by_cases hk : k ∈ stale
  · rw [if_pos hk, get]
    rw [← hstale] at hk
    obtain ⟨⟨key, e⟩, he, rfl⟩ := List.mem_map.1 hk
    obtain ⟨he, hold⟩ := List.mem_filter.1 he
    have hd : e.deleted = true := (Bool.and_eq_true_iff.1 hold).1
    rw [Dict.mem_items.1 he]
    dsimp only
    rw [if_pos hd]
  · rw [if_neg hk, get]

end

end DistributedStore

/-- Calls of the methods of a store. -/
inductive StoreOp (ν κ : Type) (α : Type u)
  | set (key : κ) (value : α) (clock : ℚ)
  | delete (key : κ) (clock : ℚ)
  | mergeEntry (key : κ) (entry : Entry ℚ ν α)
  | applyDigest (d : Digest ℚ ν κ α)
  | collectGarbage (minAge clock : ℚ)

/-- A store and the map of a subscriber that replays its callbacks. -/
structure SubscribedStore (ν κ : Type) (α : Type u) where
  store : DistributedStore ℚ ν κ α
  mirror : Dict κ α

namespace SubscribedStore

def init (n : ν) : SubscribedStore ν κ α := ⟨.init n, .empty⟩

/-- What an operation leaves when the subscriber is told of it. -/
def told (s : SubscribedStore ν κ α) (o : Outcome ℚ ν κ α ρ) : SubscribedStore ν κ α :=
  ⟨o.store, replayCalls s.mirror o.notified⟩

def step (s : SubscribedStore ν κ α) : StoreOp ν κ α → Option (SubscribedStore ν κ α)
  | .set key value clock => some (s.told (s.store.set key value clock))
  | .delete key clock => some (s.told (s.store.delete key clock))
  | .mergeEntry key entry => some (s.told (s.store.mergeEntry key entry))
  | .applyDigest d => some (s.told (s.store.applyDigest d))
  | .collectGarbage minAge clock =>
    some { s with store := (s.store.collectGarbage minAge clock).1 }

/-- The map has what the store returns for every key. -/
def Agrees (s : SubscribedStore ν κ α) : Prop := ∀ key, s.store.Mirrors s.mirror key

/-- No merge takes a value away. -/
def Heard (s : SubscribedStore ν κ α) : StoreOp ν κ α → Prop
  | .mergeEntry key entry => ¬ s.store.Silences key entry
  | .applyDigest d => ∀ key x, d.get key = some x → ¬ s.store.Silences key (Entry.fromDict x)
  | _ => True

section
omit [LinearOrder ν]

theorem Agrees.set {s : SubscribedStore ν κ α} (h : s.Agrees) (key : κ) (value : α) (clock : ℚ) :
    (s.told (s.store.set key value clock)).Agrees :=
  fun k => (h k).told (s.store.get_putLocal_value key k _)

theorem Agrees.delete {s : SubscribedStore ν κ α} (h : s.Agrees) (key : κ) (clock : ℚ) :
    (s.told (s.store.delete key clock)).Agrees := by
  cases hk : s.store.data.get key with
  | none =>
    rw [DistributedStore.delete_of_none hk]
    exact h
  | some c =>
    rw [DistributedStore.delete_of_some hk]
    exact fun k => (h k).told (s.store.get_putLocal_value key k _)

end

theorem Agrees.mergeEntry_iff {s : SubscribedStore ν κ α} (h : s.Agrees) (key : κ)
    (entry : Entry ℚ ν α) :
    (s.told (s.store.mergeEntry key entry)).Agrees ↔ ¬ s.store.Silences key entry := by
  constructor
  · intro hagree
    exact (DistributedStore.mirrors_mergeEntry (h key) entry).1 (hagree key)
  · intro hno k
    by_cases hk : k = key
    · subst hk
      exact (DistributedStore.mirrors_mergeEntry (h k) entry).2 hno
    · exact (s.store.mirrors_mergeEntry_other s.mirror hk entry).2 (h k)

theorem Agrees.applyDigest_iff {s : SubscribedStore ν κ α} (h : s.Agrees) (d : Digest ℚ ν κ α) :
    (s.told (s.store.applyDigest d)).Agrees ↔
      ∀ key x, d.get key = some x → ¬ s.store.Silences key (Entry.fromDict x) := by
  have hnd : ((d.items.map (fun p => (p.1, Entry.fromDict p.2))).map Prod.fst).Nodup :=
    (d.map Entry.fromDict).nodup
  have hmem : ∀ key e, (key, e) ∈ d.items.map (fun p => (p.1, Entry.fromDict p.2)) ↔
      ∃ x, d.get key = some x ∧ Entry.fromDict x = e := by
    intro key e
    rw [List.mem_map]
    constructor
    · rintro ⟨⟨k, x⟩, hx, he⟩
      cases he
      exact ⟨x, Dict.mem_items.1 hx, rfl⟩
    · rintro ⟨x, hx, rfl⟩
      exact ⟨(key, x), Dict.mem_items.2 hx, rfl⟩
  have hkey := fun key => DistributedStore.mirrors_merge hnd (h key)
  constructor
  · intro hagree key x hx
    exact (hkey key).1 (hagree key) _ ((hmem key _).2 ⟨x, hx, rfl⟩)
  · intro hno key
    apply (hkey key).2
    intro e he
    obtain ⟨x, hx, rfl⟩ := (hmem key e).1 he
    exact hno key x hx

theorem Agrees.step_iff {s s' : SubscribedStore ν κ α} (h : s.Agrees) (hs : s.step a = some s') :
    s'.Agrees ↔ s.Heard a := by
  cases a with
  | set key value clock =>
    cases hs
    exact iff_of_true (h.set key value clock) trivial
  | delete key clock =>
    cases hs
    exact iff_of_true (h.delete key clock) trivial
  | mergeEntry key entry =>
    cases hs
    exact h.mergeEntry_iff key entry
  | applyDigest d =>
    cases hs
    exact h.applyDigest_iff d
  | collectGarbage minAge clock =>
    cases hs
    refine iff_of_true (fun key => ?_) trivial
    rw [DistributedStore.Mirrors, DistributedStore.get_collectGarbage]
    exact h key

/-- The map of a subscriber has what `get` returns after every operation of a run exactly when no
operation takes a value away by merging a tombstone. -/
theorem mirrors_iff_heard {n : ν} {s : SubscribedStore ν κ α}
    (hrun : Run SubscribedStore.step (.init n) past s) :
    (∀ t, Visited past s t → t.Agrees) ↔ ∀ p ∈ past, p.1.Heard p.2 :=
  hrun.visited_iff (J := fun _ => True) (fun _ => rfl) trivial (fun _ _ _ _ _ => trivial)
    (fun _ _ _ _ h hs => h.step_iff hs)

/-- A replica's own deletion and one that finds no value are heard. -/
def removedHere : List (StoreOp ℕ ℕ (Option ℕ)) :=
  [.set 0 (some 7) 1, .delete 0 2, .mergeEntry 0 ⟨none, ⟨3, 1⟩, true⟩, .set 0 (some 8) 4]

theorem mirrors_removedHere : ∃ past, ∃ s : SubscribedStore ℕ ℕ (Option ℕ),
    Run SubscribedStore.step (.init 0) past s ∧
    ((∀ t, Visited past s t → t.Agrees) ↔ ∀ p ∈ past, p.1.Heard p.2) := by
  obtain ⟨past, s, hrun, -⟩ := exists_run_of_exec SubscribedStore.step
    (.init 0 : SubscribedStore ℕ ℕ (Option ℕ)) removedHere
    (fun s => mirrored s.mirror 0) (some 8) (by decide)
  exact ⟨past, s, hrun, mirrors_iff_heard hrun⟩

/-- A value that a merged tombstone removes stays in the map. -/
def removedElsewhere : List (StoreOp ℕ ℕ (Option ℕ)) :=
  [.set 0 (some 7) 1, .mergeEntry 0 ⟨none, ⟨2, 1⟩, true⟩]

theorem merged_tombstone_unheard :
    ¬ ∀ past (s : SubscribedStore ℕ ℕ (Option ℕ)), Run SubscribedStore.step (.init 0) past s →
      ∀ t, Visited past s t → t.Agrees := by
  intro hclaim
  obtain ⟨past, s, hrun, hread⟩ := exists_run_of_exec SubscribedStore.step (.init 0)
    removedElsewhere (fun s => (mirrored s.mirror 0, s.store.get 0 none)) (some 7, none)
    (by decide)
  have hagree := hclaim past s hrun s (.inl rfl) 0
  rw [DistributedStore.Mirrors] at hagree
  rw [Prod.mk.injEq] at hread
  have hne : (some 7 : Option ℕ) = none := hread.1.symm.trans (hagree.trans hread.2)
  cases hne

end SubscribedStore

end Suprime
